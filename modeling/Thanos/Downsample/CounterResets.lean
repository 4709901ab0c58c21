import Thanos.Downsample.Basic

/-! # `ApplyCounterResetsSeriesIterator`

The iterator reads its chunks' samples in order and emits the reset-corrected
running total. A sample at the timestamp it emitted last carries the true last
raw value of an aggregate chunk, which the next chunk's first raw value is
compared against. At the end of a chunk `Next` returns `Seek(lastT + 1)`,
and `Seek` calls `Next` again until the timestamp reaches its target, so an
emission below a pending target is consumed without reaching the caller.

`Next` is modelled as its loop over the events the chunk iterators produce
(a sample, or the end of a chunk), with the targets of the pending `Seek`
calls in the state; `drain` is a caller that calls `Next` until `ValNone` and
reads `At` after each `ValFloat`, as `expandXorChunkIterator` does. -/

namespace Thanos.Downsample

/-- What `it.chks[it.i].Next()` reports: a sample, or the end of the chunk. -/
inductive Event
  | sample (s : Sample)
  | chunkEnd
deriving DecidableEq, Repr

/-- The events of a sequence of chunks. -/
def events (chks : List (List Sample)) : List Event :=
  chks.flatMap fun c => c.map .sample ++ [.chunkEnd]

/-- The state of `ApplyCounterResetsSeriesIterator`. `seeks` holds the targets
of the `Seek(it.lastT + 1)` calls entered at chunk ends and not yet left,
innermost first; it is empty whenever `Next` has returned. -/
structure ApplyCounterResetsSeriesIterator where
  total : Nat := 0
  lastT : Int := 0
  lastV : ℚ := 0
  totalV : ℚ := 0
  seeks : List Int := []
deriving DecidableEq, Repr

namespace ApplyCounterResetsSeriesIterator

/-- `Next` produced a float: every pending `Seek` whose target `lastT` reaches
returns it; it reaches the caller when none is left. -/
def emit (it : ApplyCounterResetsSeriesIterator) : ApplyCounterResetsSeriesIterator × Bool :=
  let seeks := it.seeks.dropWhile (· ≤ it.lastT)
  ({ it with seeks := seeks }, seeks.isEmpty)

/-- One pass of the loop in `Next` over an event: the new state, and whether
`Next` returns `ValFloat` to its caller there. -/
def step (it : ApplyCounterResetsSeriesIterator) : Event → ApplyCounterResetsSeriesIterator × Bool
  | .chunkEnd => ({ it with seeks := (it.lastT + 1) :: it.seeks }, false)
  | .sample ⟨_, none⟩ => (it, false)
  | .sample ⟨t, some v⟩ =>
    -- the first sample sets the initial counter state
    if it.total = 0 then emit { it with total := 1, lastT := t, lastV := v, totalV := v }
    else if t > it.lastT then
      emit { it with
        totalV := it.totalV + (if v ≥ it.lastV then v - it.lastV else v)
        lastT := t, lastV := v, total := it.total + 1 }
    -- the true last value of an aggregate chunk
    else if t = it.lastT then ({ it with lastV := v }, false)
    else (it, false)

/-- Calling `Next` until it returns `ValNone`: the samples `At` returns after
each `ValFloat`, and the final state. -/
def drain (it : ApplyCounterResetsSeriesIterator) :
    List Event → List (Int × ℚ) × ApplyCounterResetsSeriesIterator
  | [] => ([], it)
  | e :: es =>
    let r := it.step e
    let rest := drain r.1 es
    (if r.2 then (r.1.lastT, r.1.totalV) :: rest.1 else rest.1, rest.2)

end ApplyCounterResetsSeriesIterator

/-- The samples `NewApplyCounterResetsIterator(chks...)` yields, and its state after. -/
def applyCounterResets (chks : List (List Sample)) :
    List (Int × ℚ) × ApplyCounterResetsSeriesIterator :=
  ApplyCounterResetsSeriesIterator.drain {} (events chks)

end Thanos.Downsample
