import CommandShell.Utility
import CommandShell.Utility.Cat
import CommandShell.Utility.Cd
import CommandShell.Utility.Cut
import CommandShell.Utility.Echo
import CommandShell.Utility.Find
import CommandShell.Utility.Grep
import CommandShell.Utility.Head
import CommandShell.Utility.Ls
import CommandShell.Utility.Sed
import CommandShell.Utility.Sorting
import CommandShell.Utility.Uniq
import CommandShell.Utility.Wc

/-!
# Invocations

A command with arguments that it has accepted.
-/

namespace CommandShell

inductive Invocation where
  | cat (cat : Cat)
  | cd (cd : Cd)
  | cut (cut : Cut)
  | echo (echo : Echo)
  | exit
  | find (find : Find)
  | grep (grep : Grep)
  | head (head : Head)
  | ls (ls : Ls)
  | pwd
  | sed (sed : Sed)
  | sort (sort : Sorting)
  | tail (tail : Tail)
  | uniq (uniq : Uniq)
  | wc (wc : Wc)

namespace Invocation

def check (utility : Utility) (arguments : Arguments) (w : World) : Checked Invocation :=
  match utility with
  | .cat => cat <$> Cat.check arguments
  | .cd => cd <$> Cd.check w arguments
  | .cut => cut <$> Cut.check arguments
  | .echo => echo <$> Echo.check arguments
  | .exit => (fun _ => exit) <$> Exit.check arguments
  | .find => find <$> Find.check w arguments
  | .grep => grep <$> Grep.check arguments
  | .head => head <$> Head.check arguments
  | .ls => ls <$> Ls.check arguments
  | .pwd => (fun _ => pwd) <$> Pwd.check arguments
  | .sed => sed <$> Sed.check arguments
  | .sort => sort <$> Sorting.check arguments
  | .tail => tail <$> Tail.check arguments
  | .uniq => uniq <$> Uniq.check arguments
  | .wc => wc <$> Wc.check arguments

def run : Invocation → Action Unit
  | cat c => c.run
  | cd c => c.run
  | cut c => c.run
  | echo c => c.run
  | exit => Exit.run
  | find c => c.run
  | grep c => c.run
  | head c => c.run
  | ls c => c.run
  | pwd => Pwd.run
  | sed c => c.run
  | sort c => c.run
  | tail c => c.run
  | uniq c => c.run
  | wc c => c.run

/-- The command after it was run in a world; only `find` remembers anything. -/
def next (w : World) : Invocation → Invocation
  | find c => find (c.next w)
  | invocation => invocation

end Invocation

end CommandShell
