import ConvSweep.Json.Decode
import ConvSweep.Json.Writer

/-!
# Build configurations

The platform under which a package is checked, and whether its foreign code takes part.
-/

namespace ConvSweep

structure BuildConfig where
  os : String
  arch : String
  cgo : Bool
  deriving DecidableEq, Repr

namespace BuildConfig

def display (c : BuildConfig) : String := c.os ++ "/" ++ c.arch

/-- By system, then by architecture, then without foreign code before with it. -/
def le (a b : BuildConfig) : Bool :=
  a.os < b.os || (a.os = b.os && (a.arch < b.arch || (a.arch = b.arch && (!a.cgo || b.cgo))))

/-- Every supported platform. -/
def platforms : List BuildConfig :=
  [("linux", "386"), ("linux", "amd64"), ("linux", "arm"), ("linux", "arm64"),
   ("linux", "mips64"), ("linux", "mips64le"), ("linux", "ppc64"), ("linux", "ppc64le"),
   ("nacl", "386"), ("nacl", "amd64p32"), ("nacl", "arm"),
   ("android", "386"), ("android", "amd64"),
   ("darwin", "386"), ("darwin", "amd64"),
   ("dragonfly", "amd64"),
   ("freebsd", "386"), ("freebsd", "amd64"), ("freebsd", "arm"),
   ("netbsd", "386"), ("netbsd", "amd64"), ("netbsd", "arm"),
   ("openbsd", "386"), ("openbsd", "amd64"), ("openbsd", "arm"),
   ("plan9", "386"), ("plan9", "amd64"),
   ("solaris", "amd64"),
   ("windows", "386"), ("windows", "amd64")].map fun (os, arch) => ⟨os, arch, false⟩

/-! ## As JSON -/

open Json

def fields : List (RecordField (Option String × Option String × Option Bool)) :=
  [⟨"os", (·.1.isSome), fun v s => do return (some (← v.toText), s.2), none⟩,
   ⟨"arch", (·.2.1.isSome), fun v s => do return (s.1, some (← v.toText), s.2.2), none⟩,
   ⟨"cgo_enabled", (·.2.2.isSome), fun v s => do return (s.1, s.2.1, some (← v.toBool)),
    some fun s => (s.1, s.2.1, some false)⟩]

def ofJson (v : Value) : Decoded BuildConfig := do
  match ← v.toRecord fields (none, none, none) with
  | (some os, some arch, some cgo) => return ⟨os, arch, cgo⟩
  | _ => throw .wrongShape

def read (bytes : List UInt8) : Decoded BuildConfig := (Document.ofBytes bytes).decode ofJson

def write (c : BuildConfig) : String :=
  Writer.compactObject
    [("os", Writer.string c.os), ("arch", Writer.string c.arch),
     ("cgo_enabled", if c.cgo then "true" else "false")]

end BuildConfig

end ConvSweep
