import ConvSweep.Merge

/-!
# Settings

What a settings file can say. Whatever it leaves out has a default.
-/

namespace ConvSweep

structure Settings where
  /-- Also remove the conversions that keep floating-point operations apart. -/
  fastMath : Option Bool
  untyped : Option UntypedMode
  /-- One line per finding. -/
  oneLine : Option Bool
  /-- The command that formats files after they are fixed. -/
  formatter : Option (List String)
  /-- The configurations to merge over. -/
  platforms : Option (List BuildConfig)
  deriving DecidableEq, Repr

namespace Settings

def default : Settings := ⟨none, none, none, none, none⟩

/-- The analysis that the settings ask for; without platforms, only the host is looked at. -/
def analysis (s : Settings) (host : BuildConfig) : Analysis where
  options := { untyped := s.untyped.getD .permissive, fastMath := s.fastMath.getD false }
  configs := s.platforms.getD [host]

end Settings

end ConvSweep
