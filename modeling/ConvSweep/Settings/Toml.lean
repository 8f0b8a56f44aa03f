import ConvSweep.Settings
import ConvSweep.Toml.Decode
import ConvSweep.Toml.Reader

/-!
# Settings as TOML

The settings are the table `unconvert` of a document. Tables with known keys may also be written
as arrays of their values in order.
-/

namespace ConvSweep

open Toml

/-- `"permissive"` or `"strict"`, or a table with one of them as its only key and nothing below. -/
def UntypedMode.ofToml? (v : Value) : Option UntypedMode :=
  let ofName (name : String) : Option UntypedMode :=
    if name = "permissive" then some .permissive
    else if name = "strict" then some .strict
    else none
  match v with
  | .string name | .table _ [(name, .table _ [])] | .table _ [(name, .array [] _)] => ofName name
  | _ => none

/-- A platform; without `cgo`, there is no foreign code. -/
def BuildConfig.ofToml? (v : Value) : Option BuildConfig :=
  match v with
  | .table _ es => do
    let os ← Entries.required es "os" Value.toText?
    let arch ← Entries.required es "arch" Value.toText?
    let cgo ← Entries.optional es "cgo" Value.toBool?
    if Entries.othersInRange ["os", "arch", "cgo"] es then some ⟨os, arch, cgo.getD false⟩ else none
  | .array (os :: arch :: rest) _ => do
    let cgo ← rest.head?.mapM Value.toBool?
    return ⟨← os.toText?, ← arch.toText?, cgo.getD false⟩
  | _ => none

namespace Settings

def keys : List String := ["fast_math", "untyped", "oneliners", "formatter", "platforms"]

/-- The settings of the section. A date is a table without known keys. -/
def ofToml? (v : Value) : Option Settings :=
  match v with
  | .table _ es => do
    let settings : Settings :=
      { fastMath := ← Entries.optional es "fast_math" Value.toBool?
        untyped := ← Entries.optional es "untyped" UntypedMode.ofToml?
        oneLine := ← Entries.optional es "oneliners" Value.toBool?
        formatter := ← Entries.optional es "formatter" (Value.toList? Value.toText?)
        platforms := ← Entries.optional es "platforms" (Value.toList? BuildConfig.ofToml?) }
    if Entries.othersInRange keys es then some settings else none
  | .array (fastMath :: untyped :: oneLine :: formatter :: platforms :: _) _ => do
    return {
      fastMath := ← fastMath.toBool?
      untyped := ← UntypedMode.ofToml? untyped
      oneLine := ← oneLine.toBool?
      formatter := ← formatter.toList? Value.toText?
      platforms := ← platforms.toList? BuildConfig.ofToml? }
  | .datetime => some .default
  | _ => none

/-- Reads a settings file. -/
def read? (text : String) : Option Settings := do
  let es ← Toml.read text
  let settings ← Entries.optional es "unconvert" ofToml?
  if Entries.othersInRange ["unconvert"] es then some (settings.getD .default) else none

end Settings

end ConvSweep
