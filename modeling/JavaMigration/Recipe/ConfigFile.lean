import JavaMigration.Document.JsonText
import JavaMigration.Document.Yaml.Node
import JavaMigration.File.Path
import JavaMigration.Recipe.Decode

/-!
# Settings files

Settings are read from a JSON file if its name says so, and from a YAML file otherwise.
-/

namespace JavaMigration.Recipe

open Document

/-- Why a file gives no settings. -/
inductive ConfigFileFault where
  /-- There is no file, or it is no text. -/
  | unreadable
  | json
  | yaml
  | config (fault : ConfigFault)
  deriving DecidableEq, Repr, Inhabited

namespace Config

/-- Settings, unless something is wrong with them. -/
def checked (c : Config) : Except ConfigFileFault Config :=
  match c.fault? with
  | some fault => .error (.config fault)
  | none => .ok c

/-- The settings in a file with the given text. -/
def ofFile (path : String) (text : Option String) : Except ConfigFileFault Config :=
  match text with
  | none => .error .unreadable
  | some text =>
    if File.extension? path == some "json" then
      match (JsonText.read text).bind ofValue with
      | some c => c.checked
      | none => .error .json
    else
      match (Yaml.read text).bind ofValue with
      | some c => c.checked
      | none => .error .yaml

end Config

end JavaMigration.Recipe
