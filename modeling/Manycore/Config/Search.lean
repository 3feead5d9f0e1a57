import Manycore.Config.Document
import Manycore.Config.Override
import Manycore.FileTree

/-! # Finding and loading configurations

A configuration is at the path that the environment names, or else in the directory at hand or one
of the five above it. Environment variables go over the file, and arguments go over both.
-/

namespace Manycore

namespace Config

def fileName : String := "spinn_configuration.toml"

/-- The variable that names a path. -/
def pathVariable : String := "SPINN_CONFIG_PATH"

/-- Where a configuration was found. -/
inductive Location where
  /-- At the path that was asked for. -/
  | path (path : String)
  /-- In a directory that was searched. -/
  | directory (place : Place)

/-- A directory and those above it, nearest first, at most `count` of them. -/
def upward : Nat → Place → List Place
  | 0, _ => []
  | count + 1, here => here :: if here.isEmpty then [] else upward count here.dropLast

/-- Find the configuration for the working directory. -/
def find (env : Assignments) (files : FileTree) : Except ConfigError Location :=
  match env.lookup pathVariable with
  | some path => if files.hasPath path then .ok (.path path) else .error (.missingPath path)
  | none =>
    match (upward 6 files.here).find? fun place =>
      files.hasPath (FileTree.pathOf (place ++ [fileName])) with
    | some place => .ok (.directory place)
    | none => .error .notFound

/-- Load the configuration at a path, or the one that is found, as it is under the environment and
the arguments. -/
def load (path : Option String) (env : Assignments) (args : Option Assignments) (files : FileTree) :
    Except ConfigError Config := do
  let path ← match path with
    | some path => pure path
    | none =>
      match ← find env files with
      | .path path => pure path
      | .directory place => pure (FileTree.pathOf (place ++ [fileName]))
  match files.readText? path with
  | none => throw .unreadable
  | some text =>
    let c := (← ofDocument text).withEnvironment env
    match args with
    | none => pure c
    | some args =>
      let (outcome, c) := c.withArguments args
      outcome
      pure c

end Config

end Manycore
