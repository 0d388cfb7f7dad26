import JavaMigration.Dependency.Manifest
import JavaMigration.File.Path

/-!
# Upgrading a dependency

The upgrade of one dependency to the newest known version that a selector accepts. A version
that is not older stays.
-/

namespace JavaMigration.Dependency

structure Upgrade where
  group : String
  artifact : String
  selector : Selector
  known : List String
  deriving DecidableEq, Repr, Inhabited

namespace Upgrade

def name : String := "upgrade-dependency-version"

def coordinates (u : Upgrade) : String := u.group ++ ":" ++ u.artifact

def describe (u : Upgrade) : String := "upgrade " ++ u.coordinates ++ " to " ++ u.selector.print

def target? (u : Upgrade) : Option String := u.selector.select u.known

/-- What is wrong with an upgrade that has no target. -/
def missingTarget (u : Upgrade) : String :=
  "Invalid configuration: no known version of " ++ u.coordinates ++ " matches " ++
    u.selector.print

/-- The versions of the dependency in a file; a `pom.xml` is a Maven file and every other one
a Gradle file. -/
def spots (u : Upgrade) (path : String) (content : List Char) : List VersionSpot :=
  let find := if File.fileName? path == some "pom.xml" then mavenSpots else gradleSpots
  find u.group.toList u.artifact.toList content

/-- The text of a build file with the dependency upgraded; `none` if there is no target. -/
def upgradeManifest (u : Upgrade) (path content : String) : Option String :=
  u.target?.map fun target =>
    String.ofList (raiseSpots target (u.spots path content.toList) content.toList)

end Upgrade

end JavaMigration.Dependency
