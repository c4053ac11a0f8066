import Neighbors.Demo.Run

/-!
# Command line

The outer layer of the demonstration program: it hands over the arguments and prints.
-/

namespace Neighbors

def usage : String :=
  "Usage: neighbors [--index flat|refine|sorted-axis] [--metric l2|inner-product] [-d|--dim N]\n" ++
  "  [--nb N] [--nq N] [-k|--k N] [--k-factor F] [--seed N] [--log-format text|json]\n"

end Neighbors

def main (arguments : List String) : IO UInt32 := do
  match Neighbors.Demo.runArguments arguments with
  | .stopped code =>
    if code = 0 then IO.print Neighbors.usage else IO.eprint Neighbors.usage
    return UInt32.ofNat code
  | .finished code output errors =>
    IO.print output
    IO.eprint errors
    return UInt32.ofNat code
