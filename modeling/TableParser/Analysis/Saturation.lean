/-!
# Passes until nothing changes

Some tables are computed by passes that let them grow. The passes end with the first one that adds nothing.
-/

namespace TableParser

/-- Repeat a pass, which tells whether it added anything, until it does not, but not more often than the fuel allows;
also count the passes. -/
def saturate {α : Type} (pass : α → α × Bool) : Nat → α → α × Nat
  | 0, a => (a, 0)
  | fuel + 1, a =>
    match pass a with
    | (next, true) =>
      let (result, passes) := saturate pass fuel next
      (result, passes + 1)
    | (next, false) => (next, 1)

end TableParser
