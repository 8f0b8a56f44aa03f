import ConvSweep.FileTree
import ConvSweep.Settings.Toml

/-!
# Finding the settings

The settings file is looked for in a directory and in those around it, as far as the spelling of
the path goes. A file that cannot be read as settings is passed over.
-/

namespace ConvSweep.Settings

def fileName : String := ".unconvert.toml"

/-- What a search has found. -/
structure Found where
  settings : Settings
  /-- The file that holds the settings, unless they are the defaults. -/
  path : Option Path
  /-- The files that were passed over. -/
  ignored : List Path

/-- The settings in a file, if it can be read. -/
def readFile? (tree : FileTree) (p : Path) : Option Settings :=
  match tree.readText p with
  | .ok text => read? text
  | .error _ => none

/-- Looks into the directories one after the other. -/
def searchIn (tree : FileTree) : List Path → Found
  | [] => ⟨.default, none, []⟩
  | dir :: dirs =>
    let candidate := dir.join fileName
    if tree.hasEntry candidate then
      match readFile? tree candidate with
      | some settings => ⟨settings, some candidate, []⟩
      | none =>
        let found := searchIn tree dirs
        { found with ignored := candidate :: found.ignored }
    else searchIn tree dirs

/-- Looks for the settings from a file or directory upwards. -/
def search (tree : FileTree) (start : Path) : Found :=
  let dir := if tree.isFile start then start.parent?.getD start else start
  searchIn tree dir.upwards

end ConvSweep.Settings
