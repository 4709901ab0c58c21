import Thanos.Go.Sort
import Mathlib.Order.Basic

/-! # The postings offset table of a binary index header

A format V2 index has a postings offset table: one entry per label name and
value, sorted by name and value, giving the offset of the value's postings list.
`BinaryReader.init` keeps in memory, for each name, only every
`postingOffsetsInMemSampling`-th value and the last one, with the entry's position
in the table (`tableOff`); `postingsOffset` binary searches those samples and scans
the table from the sample before each wanted value.

The table is the list of its entries and a position is an entry's index: reading
from `tableOff` on reads the entries from that index on, and reading past the end
is the decoder's error. -/

namespace Thanos.IndexHeader

open Go.Sort

structure TableEntry where
  name : String
  value : String
  offset : Int
  deriving DecidableEq, Repr

/-- `index.Range`. -/
structure Range where
  start : Int
  stop : Int
  deriving DecidableEq, Repr

def notFoundRange : Range := ⟨-1, -1⟩

def postingLengthFieldSize : Int := 4
def crc32Size : Int := 4

structure PostingOffset where
  value : String
  tableOff : Nat
  deriving DecidableEq, Repr

structure PostingValueOffsets where
  offsets : List PostingOffset
  lastValOffset : Int
  deriving DecidableEq, Repr

/-- `r.postings[name]` on the map as a list of entries. -/
def getPostings (postings : List (String × PostingValueOffsets)) (name : String) :
    Option PostingValueOffsets :=
  postings.lookup name

/-- `r.postings[name] = f(r.postings[name])` for a name already in the map. -/
def modifyPostings (postings : List (String × PostingValueOffsets)) (name : String)
    (f : PostingValueOffsets → PostingValueOffsets) : List (String × PostingValueOffsets) :=
  postings.map fun p => if p.1 = name then (p.1, f p.2) else p

/-- What `init` carries from one entry of the table to the next. -/
structure InitState where
  postings : List (String × PostingValueOffsets)
  lastName : Option String
  lastValue : String
  lastTableOff : Nat
  valueCount : Nat
  deriving DecidableEq, Repr

def appendOffset (o : PostingOffset) (e : PostingValueOffsets) : PostingValueOffsets :=
  { e with offsets := e.offsets ++ [o] }

/-- The callback `init` passes to `ReadPostingsOffsetTable`, for the entry at
position `labelOffset`. -/
def initStep (sampling : Nat) (st : InitState) (ent : TableEntry) (labelOffset : Nat) :
    InitState :=
  let st :=
    if (getPostings st.postings ent.name).isNone then
      let postings := st.postings ++ [(ent.name, ⟨[], 0⟩)]
      let postings := match st.lastName with
        | none => postings
        | some lastName =>
          -- always include the last value of each name, unless it was just sampled
          let postings := if (st.valueCount - 1) % sampling ≠ 0 then
              modifyPostings postings lastName (appendOffset ⟨st.lastValue, st.lastTableOff⟩)
            else postings
          modifyPostings postings lastName fun e => { e with lastValOffset := ent.offset - crc32Size }
      { st with postings, lastName := none, valueCount := 0 }
    else st
  let valueCount := st.valueCount + 1
  let postings := if (valueCount - 1) % sampling = 0 then
      modifyPostings st.postings ent.name (appendOffset ⟨ent.value, labelOffset⟩)
    else st.postings
  { postings, lastName := some ent.name, lastValue := ent.value, lastTableOff := labelOffset,
    valueCount }

def initLoop (sampling : Nat) : InitState → List TableEntry → Nat → InitState
  | st, [], _ => st
  | st, ent :: rest, pos => initLoop sampling (initStep sampling st ent pos) rest (pos + 1)

/-- The postings part of `BinaryReader.init` for a format V2 index. -/
def initPostings (sampling : Nat) (table : List TableEntry) (indexLastPostingEnd : Int) :
    List (String × PostingValueOffsets) :=
  let st := initLoop sampling ⟨[], none, "", 0, 0⟩ table 0
  match st.lastName with
  | none => st.postings
  | some lastName =>
    let postings := if (st.valueCount - 1) % sampling ≠ 0 then
        modifyPostings st.postings lastName (appendOffset ⟨st.lastValue, st.lastTableOff⟩)
      else st.postings
    modifyPostings postings lastName fun e => { e with lastValOffset := indexLastPostingEnd - crc32Size }

/-- The reader's state that `postingsOffset` and `LabelValues` use. -/
structure BinaryReader where
  table : List TableEntry
  indexLastPostingEnd : Int
  postingOffsetsInMemSampling : Nat
  postings : List (String × PostingValueOffsets)

def BinaryReader.init (table : List TableEntry) (indexLastPostingEnd : Int) (sampling : Nat) :
    BinaryReader :=
  ⟨table, indexLastPostingEnd, sampling, initPostings sampling table indexLastPostingEnd⟩

def decodeErr : String := "get postings offset entry: invalid size"

/-- The entry the decoder reads at a position. -/
def readEntry (table : List TableEntry) (pos : Nat) : Except String TableEntry :=
  match table[pos]? with
  | some ent => .ok ent
  | none => .error decodeErr

def setEnd (stop : Int) (rngs : List Range) : List Range :=
  rngs.map fun r => { r with stop }

/-- How the loop over wanted values of one table entry ends. -/
inductive InnerExit where
  /-- `break Iter`: the next wanted value is at or after the next sample. -/
  | breakIter (ws : List String) (rngs newSameRngs : List Range)
  /-- the loop condition failed, or no wanted value is left -/
  | done (ws : List String) (rngs newSameRngs : List Range)
  deriving DecidableEq, Repr

/-- `for string(value) >= wantedValue`, over the wanted values `ws` not yet
answered, at the entry `value` with postings at `postingOffset`. `next` is the
value of the sample after `offsets[i]`, if any. -/
def innerLoop (value : String) (postingOffset : Int) (next : Option String) :
    List String → List Range → List Range → InnerExit
  | [], rngs, newSame => .done [] rngs newSame
  | w :: ws, rngs, newSame =>
    if value ≥ w then
      let (rngs, newSame) := if value = w then
          (rngs, newSame ++ [⟨postingOffset + postingLengthFieldSize, 0⟩])
        else (rngs ++ [notFoundRange], newSame)
      match ws with
      | [] => .done [] rngs newSame
      | w' :: _ =>
        match next with
        | some nextValue =>
          if newSame = [] ∧ w' ≥ nextValue then .breakIter ws rngs newSame
          else innerLoop value postingOffset next ws rngs newSame
        | none => innerLoop value postingOffset next ws rngs newSame
    else .done (w :: ws) rngs newSame

/-- The exit of the loop `Iter`: the ranges opened at the entry `pos` end where the
next entry's postings start. -/
def closeSame (table : List TableEntry) (pos : Nat) (ws : List String) (rngs newSame : List Range) :
    Except String (List String × List Range) :=
  if newSame ≠ [] then do
    let ent' ← readEntry table (pos + 1)
    .ok (ws, rngs ++ setEnd (ent'.offset - crc32Size) newSame)
  else .ok (ws, rngs)

/-- The loop `Iter` over the table from position `pos`, within the samples
`offsets[i, i+1)`, for at most `fuel` entries. It returns the wanted values not
answered yet. -/
def iterLoop (table : List TableEntry) (e : PostingValueOffsets) :
    Nat → Nat → Nat → List String → List Range → List Range →
      Except String (List String × List Range)
  | 0, _, _, _, _, _ => .error decodeErr
  | fuel + 1, pos, i, ws, rngs, newSame => do
    let ent ← readEntry table pos
    let rngs := if newSame ≠ [] then rngs ++ setEnd (ent.offset - crc32Size) newSame else rngs
    let next := (e.offsets[i + 1]?).map PostingOffset.value
    match innerLoop ent.value ent.offset next ws rngs [] with
    | .breakIter ws rngs _ => .ok (ws, rngs)
    | .done ws rngs newSame =>
      match next with
      | none =>
        -- no more offsets for this name
        .ok (ws, rngs ++ setEnd e.lastValOffset newSame)
      | some nextValue =>
        match ws with
        | w :: _ =>
          if w ≤ nextValue then
            iterLoop table e fuel (pos + 1) (if w = nextValue then i + 1 else i) ws rngs newSame
          else closeSame table pos ws rngs newSame
        | [] => closeSame table pos ws rngs newSame

/-- The outer loop of `postingsOffset`, for at most `fuel` binary searches. -/
def searchLoop' (table : List TableEntry) (e : PostingValueOffsets) (total : Nat) :
    Nat → List String → List Range → Except String (List Range)
  | 0, _, rngs => .ok rngs
  | _, [], rngs => .ok rngs
  | fuel + 1, w :: ws, rngs =>
    let i := search e.offsets.length fun j => match e.offsets[j]? with
      | some o => decide (o.value ≥ w)
      | none => true
    match e.offsets[i]? with
    | none =>
      -- past the end
      .ok (rngs ++ List.replicate (total - rngs.length) notFoundRange)
    | some o =>
      let i := if i > 0 ∧ o.value ≠ w then i - 1 else i
      let tableOff := ((e.offsets[i]?).map PostingOffset.tableOff).getD 0
      match iterLoop table e (table.length + 1) tableOff i (w :: ws) rngs [] with
      | .error err => .error err
      | .ok (ws, rngs) => searchLoop' table e total fuel ws rngs

/-- `BinaryReader.postingsOffset` for a format V2 index. -/
def BinaryReader.postingsOffset (r : BinaryReader) (name : String) (values : List String) :
    Except String (List Range) :=
  match getPostings r.postings name with
  | none => .ok []
  | some e =>
    if values = [] then .ok []
    else
      let first := ((e.offsets.head?).map PostingOffset.value).getD ""
      -- discard values before the start
      let discarded := values.takeWhile (· < first)
      let ws := values.dropWhile (· < first)
      searchLoop' r.table e values.length (values.length + 1) ws
        (discarded.map fun _ => notFoundRange)

/-- The loop of `LabelValues` from position `pos`, for at most `fuel` entries. -/
def labelValuesLoop (table : List TableEntry) (lastVal : String) :
    Nat → Nat → List String → Except String (List String)
  | 0, _, _ => .error decodeErr
  | fuel + 1, pos, values => do
    let ent ← readEntry table pos
    let values := values ++ [ent.value]
    if ent.value = lastVal then .ok values
    else labelValuesLoop table lastVal fuel (pos + 1) values

/-- `BinaryReader.LabelValues` for a format V2 index. -/
def BinaryReader.labelValues (r : BinaryReader) (name : String) : Except String (List String) :=
  match getPostings r.postings name with
  | none => .ok []
  | some e =>
    match e.offsets.head?, e.offsets.getLast? with
    | some first, some last => labelValuesLoop r.table last.value (r.table.length + 1) first.tableOff []
    | _, _ => .ok []

end Thanos.IndexHeader
