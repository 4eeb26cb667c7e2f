import CommandShell.Complaint
import CommandShell.Pattern.Wildcard

/-!
# Discovery of commands

Commands are looked for in modules whose file names say that they hold one. Every such module
must define something with a specification, and something that is a command.
-/

namespace CommandShell

namespace Discovery

/-- What a module can define under a name. -/
inductive Definition where
  /-- a command, with a specification -/
  | command
  /-- a kind of thing that has a specification but is no command -/
  | specified
  /-- a kind of thing with neither -/
  | plain
  /-- a thing, rather than a kind of thing -/
  | thing
  /-- the common base of all commands -/
  | base
deriving DecidableEq, Repr

/-- A module: its name and what it defines. -/
structure Module where
  name : Text
  definitions : List (Text × Definition)

def baseName : Text := "BaseCommand".toList

def baseModule : Text := "base_command".toList

def Module.file (m : Module) : Text := m.name ++ ".py".toList

def Module.isSearched (m : Module) : Bool :=
  m.file.head? ≠ some '.' && Wildcard.fits "*command.py".toList m.file && m.name ≠ baseModule

/-- The definitions of a module by name, without the common base. -/
def Module.ordered (m : Module) : List (Text × Definition) :=
  (m.definitions.filter fun (name, definition) => name ≠ baseName && definition ≠ .base).mergeSort
    fun a b => Text.le a.1 b.1

def Module.commands (m : Module) : Except Complaint (List Text) :=
  let found := m.ordered
  if !found.any fun (_, definition) => definition = .command || definition = .specified then
    throw (.moduleWithoutName m.name)
  else
    let commands := found.filter fun (_, definition) => definition = .command
    if commands.isEmpty then throw (.moduleWithoutCommand m.name)
    else return commands.map (·.1)

/-- The commands of all modules, in the order of their files. -/
def commands (modules : List Module) : Except Complaint (List Text) := do
  let searched := (modules.filter (·.isSearched)).mergeSort fun a b => Text.le a.file b.file
  return (← searched.mapM (·.commands)).flatten

end Discovery

end CommandShell
