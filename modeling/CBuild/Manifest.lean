/-! The configuration of a project: one compiler invocation, and shell commands around it. -/

namespace CBuild

/-- Shell commands: those that run before a build, after a successful one, and only on request. -/
structure ShellHooks where
  before : List String := []
  after : List String := []
  misc : List String := []
deriving DecidableEq, Inhabited

structure Manifest where
  compiler : String := "gcc"
  name : String := "App name"
  output : String := "app.exe"
  flags : List String := []
  files : List String := []
  includes : List String := []
  libs : List String := []
  libraries : List String := []
  shell : ShellHooks := {}
deriving DecidableEq, Inhabited

namespace Manifest

def defaultFile : String := "pmk.toml"

def hasSources (m : Manifest) : Bool :=
  !m.files.isEmpty

end Manifest
end CBuild
