import MatrixCube.Storage.KV
import MatrixCube.Lib.BigEndian

/-! # Snapshot files

`CreateSnapshot(path, start, end)` of both data storages writes one file,
`db.data`, as a sequence of fields, each a four-byte big-endian length and the
bytes: `start`, `end`, then each key and value of `[start, end)`.
`ApplySnapshot(path)` reads it back: it deletes `[start, end)` from its own
store and sets each pair read, until a field of length zero ends the stream;
a value of length zero is rejected as malformed. The pebble storage writes and
sets the raw values; the mem storage does the same with its stored encoding.

The file lives in a `vfs` memory file system: writes append, and `Read` copies
as many bytes as are left, returning zero bytes with `io.EOF` at the end. The
file is its byte sequence.
-/

namespace MatrixCube.Storage

open ByteOrder BigEndian

/-- `writeBytes`: the length as a `uint32`, big-endian, then the data. -/
def writeBytes (data : Bytes) : Bytes :=
  bytesOfNat 4 (data.length % 2 ^ 32) ++ data

/-- `readBytes` from position `pos`: the field and the position after it, the
empty field at the end of the file, or `none` when the loop never returns (the
file ends inside the field, and every later `Read` returns nothing). A header
cut short by the end of the file is read with its missing bytes zero. -/
def readBytes (file : Bytes) (pos : Nat) : Option (Bytes × Nat) :=
  if file.length ≤ pos then some ([], pos)
  else
    let header := (file.drop pos).take 4
    let total := natOfBytes (header ++ List.replicate (4 - header.length) 0)
    let pos := pos + header.length
    if total ≤ file.length - pos then some ((file.drop pos).take total, pos + total)
    else none

/-- The errors `ApplySnapshot` reports for a malformed file. -/
inductive SnapshotError where
  /-- `error format, missing start field` -/
  | missingStart
  /-- `error format, missing end field` -/
  | missingEnd
  /-- `error format, missing value field` -/
  | missingValue
  deriving DecidableEq, Repr

/-- The fields `CreateSnapshot` writes for the pairs it visits: each key, then
its value. -/
def pairsBytes (pairs : List (Bytes × Bytes)) : Bytes :=
  (pairs.map fun kv => writeBytes kv.1 ++ writeBytes kv.2).flatten

/-- The file `CreateSnapshot` writes for the pairs it visits. -/
def snapshotFile (start end_ : Bytes) (pairs : List (Bytes × Bytes)) : Bytes :=
  writeBytes start ++ writeBytes end_ ++ pairsBytes pairs

/-- The loop of `ApplySnapshot` from position `pos`, with the store's `set`:
the store it leaves and the error it stops with. Each pass reads at least one
header byte, so `fuel` above the file's length is never exhausted. -/
def applyPairs (set : KVStore → Bytes → Bytes → KVStore) (file : Bytes) :
    Nat → Nat → KVStore → Option (KVStore × Option SnapshotError)
  | 0, _, _ => none
  | fuel + 1, pos, db => do
      let (key, pos) ← readBytes file pos
      if key.length = 0 then pure (db, none)
      else
        let (value, pos) ← readBytes file pos
        if value.length = 0 then pure (db, some .missingValue)
        else applyPairs set file fuel pos (set db key value)

/-- `ApplySnapshot` over a store with its range deletion and `set`. -/
def applySnapshotWith (deleteRange : KVStore → Bytes → Bytes → KVStore)
    (set : KVStore → Bytes → Bytes → KVStore) (file : Bytes) (db : KVStore) :
    Option (KVStore × Option SnapshotError) := do
  let (start, pos) ← readBytes file 0
  if start.length = 0 then pure (db, some .missingStart)
  else
    let (end_, pos) ← readBytes file pos
    if end_.length = 0 then pure (db, some .missingEnd)
    else applyPairs set file (file.length + 1) pos (deleteRange db start end_)

namespace Pebble

/-- `Storage.CreateSnapshot` of the pebble storage: the file it writes. -/
def createSnapshot (db : KVStore) (start end_ : Bytes) : Bytes :=
  snapshotFile start end_ (db.iter start end_)

/-- `Storage.ApplySnapshot` of the pebble storage. -/
def applySnapshot (file : Bytes) (db : KVStore) : Option (KVStore × Option SnapshotError) :=
  applySnapshotWith KVStore.deleteRange KVStore.set file db

end Pebble

namespace Mem

/-- `Storage.CreateSnapshot` of the mem storage: the file it writes. -/
def createSnapshot (kv : KVStore) (start end_ : Bytes) : Bytes :=
  snapshotFile start end_ (kv.scan start end_)

/-- `Storage.ApplySnapshot` of the mem storage. -/
def applySnapshot (file : Bytes) (kv : KVStore) : Option (KVStore × Option SnapshotError) :=
  applySnapshotWith KVStore.rangeDelete KVStore.put file kv

end Mem

/-! ## Reading back what was written -/

@[simp] theorem length_writeBytes (data : Bytes) : (writeBytes data).length = 4 + data.length := by
  simp [writeBytes]

@[simp] theorem pairsBytes_nil : pairsBytes [] = [] := rfl

@[simp] theorem pairsBytes_cons (kv : Bytes × Bytes) (pairs : List (Bytes × Bytes)) :
    pairsBytes (kv :: pairs) = writeBytes kv.1 ++ writeBytes kv.2 ++ pairsBytes pairs := by
  simp [pairsBytes]

theorem length_pairsBytes (pairs : List (Bytes × Bytes)) :
    pairs.length * 8 ≤ (pairsBytes pairs).length := by
  induction pairs with
  | nil => simp
  | cons kv pairs ih => simp; omega

/-- A field written with a length below `2 ^ 32` reads back whole, whatever
precedes and follows it. -/
theorem readBytes_writeBytes (pre data rest : Bytes) (hdata : data.length < 2 ^ 32) :
    readBytes (pre ++ writeBytes data ++ rest) pre.length =
      some (data, pre.length + 4 + data.length) := by
  have hmod : data.length % 2 ^ 32 = data.length := Nat.mod_eq_of_lt hdata
  have hdrop : (pre ++ writeBytes data ++ rest).drop pre.length =
      bytesOfNat 4 data.length ++ (data ++ rest) := by
    rw [List.append_assoc, List.drop_left, writeBytes, hmod, List.append_assoc]
  have hheader : ((pre ++ writeBytes data ++ rest).drop pre.length).take 4 =
      bytesOfNat 4 data.length := by
    rw [hdrop, List.take_left' (length_bytesOfNat 4 _)]
  have htotal : natOfBytes (bytesOfNat 4 data.length) = data.length :=
    natOfBytes_bytesOfNat (by simpa using hdata)
  have hlen : (pre ++ writeBytes data ++ rest).length =
      pre.length + 4 + data.length + rest.length := by
    simp; omega
  have hbody : ((pre ++ writeBytes data ++ rest).drop (pre.length + 4)).take data.length = data := by
    rw [← List.drop_drop, hdrop, List.drop_left' (length_bytesOfNat 4 _), List.take_left]
  unfold readBytes
  rw [if_neg (by omega), hheader]
  dsimp only
  rw [length_bytesOfNat, Nat.sub_self, List.replicate_zero, List.append_nil, htotal,
    if_pos (by omega), hbody]

/-- At the end of the file `Read` returns nothing: the empty field. -/
theorem readBytes_end (file : Bytes) : readBytes file file.length = some ([], file.length) := by
  simp [readBytes]

/-- A pair the file format carries: the key and the value are non-empty, since
an empty field ends the stream or is rejected, and shorter than `2 ^ 32` bytes,
since the length is written as a `uint32`. -/
def Representable (kv : Bytes × Bytes) : Prop :=
  kv.1 ≠ [] ∧ kv.2 ≠ [] ∧ kv.1.length < 2 ^ 32 ∧ kv.2.length < 2 ^ 32

/-- One pass of the loop of `ApplySnapshot` over a representable pair: it reads
the key and the value and sets them. -/
theorem applyPairs_cons (set : KVStore → Bytes → Bytes → KVStore) {kv : Bytes × Bytes}
    (hkv : Representable kv) (pre : Bytes) (pairs : List (Bytes × Bytes)) (fuel : Nat)
    (db : KVStore) :
    applyPairs set (pre ++ pairsBytes (kv :: pairs)) (fuel + 1) pre.length db =
      applyPairs set (pre ++ writeBytes kv.1 ++ writeBytes kv.2 ++ pairsBytes pairs) fuel
        (pre ++ writeBytes kv.1 ++ writeBytes kv.2).length (set db kv.1 kv.2) := by
  obtain ⟨hkey, hvalue, hklen, hvlen⟩ := hkv
  have hkeyRead : readBytes (pre ++ pairsBytes (kv :: pairs)) pre.length =
      some (kv.1, pre.length + 4 + kv.1.length) := by
    simpa [List.append_assoc] using
      readBytes_writeBytes pre kv.1 (writeBytes kv.2 ++ pairsBytes pairs) hklen
  have hvalueRead : readBytes (pre ++ pairsBytes (kv :: pairs)) (pre.length + 4 + kv.1.length) =
      some (kv.2, pre.length + 4 + kv.1.length + 4 + kv.2.length) := by
    have h := readBytes_writeBytes (pre ++ writeBytes kv.1) kv.2 (pairsBytes pairs) hvlen
    rw [show (pre ++ writeBytes kv.1).length = pre.length + 4 + kv.1.length by simp; omega] at h
    simpa [List.append_assoc] using h
  have hpos : (pre ++ writeBytes kv.1 ++ writeBytes kv.2).length =
      pre.length + 4 + kv.1.length + 4 + kv.2.length := by
    simp; omega
  simp only [applyPairs, hkeyRead, Option.bind_eq_bind, Option.bind_some, List.length_eq_zero_iff,
    hkey, if_false, hvalueRead, hvalue, hpos]
  simp only [pairsBytes_cons, List.append_assoc]

/-- The loop of `ApplySnapshot` sets every representable pair written after
`pre`, in order, and stops at the end of the file without an error. -/
theorem applyPairs_pairsBytes (set : KVStore → Bytes → Bytes → KVStore) :
    ∀ (pairs : List (Bytes × Bytes)) (pre : Bytes) (db : KVStore) (fuel : Nat),
      pairs.length < fuel → (∀ kv ∈ pairs, Representable kv) →
      applyPairs set (pre ++ pairsBytes pairs) fuel pre.length db =
        some (pairs.foldl (fun db kv => set db kv.1 kv.2) db, none)
  | [], pre, db, fuel + 1, _, _ => by
    simp [applyPairs, readBytes_end]
  | kv :: pairs, pre, db, fuel + 1, hfuel, hrep => by
    rw [applyPairs_cons set (hrep kv List.mem_cons_self),
      applyPairs_pairsBytes set pairs _ _ fuel (by simp at hfuel; omega)
        fun p hp => hrep p (List.mem_cons_of_mem _ hp)]
    rfl

/-- A pair with an empty value stops the loop of `ApplySnapshot` with
"missing value field", after the representable pairs before it were set. -/
theorem applyPairs_pairsBytes_missingValue (set : KVStore → Bytes → Bytes → KVStore)
    {key : Bytes} (hkey : key ≠ []) (hklen : key.length < 2 ^ 32) (rest : List (Bytes × Bytes)) :
    ∀ (pairs : List (Bytes × Bytes)) (pre : Bytes) (db : KVStore) (fuel : Nat),
      pairs.length < fuel → (∀ kv ∈ pairs, Representable kv) →
      applyPairs set (pre ++ pairsBytes (pairs ++ (key, []) :: rest)) fuel pre.length db =
        some (pairs.foldl (fun db kv => set db kv.1 kv.2) db, some .missingValue)
  | [], pre, db, fuel + 1, _, _ => by
    have hkeyRead : readBytes (pre ++ (writeBytes key ++ (writeBytes [] ++ pairsBytes rest)))
        pre.length = some (key, pre.length + 4 + key.length) := by
      simpa [List.append_assoc] using
        readBytes_writeBytes pre key (writeBytes [] ++ pairsBytes rest) hklen
    have hvalueRead : readBytes (pre ++ (writeBytes key ++ (writeBytes [] ++ pairsBytes rest)))
        (pre.length + 4 + key.length) = some ([], pre.length + 4 + key.length + 4) := by
      have h := readBytes_writeBytes (pre ++ writeBytes key) [] (pairsBytes rest) (by simp)
      rw [show (pre ++ writeBytes key).length = pre.length + 4 + key.length by simp; omega] at h
      simpa [List.append_assoc] using h
    simp only [List.nil_append, pairsBytes_cons, List.append_assoc, applyPairs, hkeyRead,
      Option.bind_eq_bind, Option.bind_some, List.length_eq_zero_iff, hkey, if_false, hvalueRead,
      if_true, List.foldl_nil]
    rfl
  | kv :: pairs, pre, db, fuel + 1, hfuel, hrep => by
    rw [List.cons_append, applyPairs_cons set (hrep kv List.mem_cons_self),
      applyPairs_pairsBytes_missingValue set hkey hklen rest pairs _ _ fuel
        (by simp at hfuel; omega) fun p hp => hrep p (List.mem_cons_of_mem _ hp)]
    rfl

/-- `ApplySnapshot` of a file written over representable pairs: it deletes
`[start, end_)` and sets every pair, without an error. -/
theorem applySnapshotWith_snapshotFile (deleteRange set : KVStore → Bytes → Bytes → KVStore)
    {start end_ : Bytes} {pairs : List (Bytes × Bytes)} (hstart : start ≠ []) (hend : end_ ≠ [])
    (hlen : start.length < 2 ^ 32 ∧ end_.length < 2 ^ 32) (hpairs : ∀ kv ∈ pairs, Representable kv)
    (db : KVStore) :
    applySnapshotWith deleteRange set (snapshotFile start end_ pairs) db =
      some (pairs.foldl (fun db kv => set db kv.1 kv.2) (deleteRange db start end_), none) := by
  have hstartRead : readBytes (snapshotFile start end_ pairs) 0 = some (start, 4 + start.length) := by
    simpa [snapshotFile, List.append_assoc] using
      readBytes_writeBytes [] start (writeBytes end_ ++ pairsBytes pairs) hlen.1
  have hendRead : readBytes (snapshotFile start end_ pairs) (4 + start.length) =
      some (end_, 4 + start.length + 4 + end_.length) := by
    simpa [snapshotFile, List.append_assoc] using
      readBytes_writeBytes (writeBytes start) end_ (pairsBytes pairs) hlen.2
  have hfuel : pairs.length < (snapshotFile start end_ pairs).length + 1 := by
    have := length_pairsBytes pairs
    simp [snapshotFile]; omega
  have hloop := applyPairs_pairsBytes set pairs (writeBytes start ++ writeBytes end_)
    (deleteRange db start end_) _ hfuel hpairs
  rw [show (writeBytes start ++ writeBytes end_).length = 4 + start.length + 4 + end_.length by
    simp; omega] at hloop
  simp only [applySnapshotWith, hstartRead, Option.bind_eq_bind, Option.bind_some,
    List.length_eq_zero_iff, hstart, if_false, hendRead, hend]
  exact hloop

/-! ## The round trip -/

/-- What applying a snapshot of `src` over `[start, end_)` to `tgt` should leave:
the pairs of `src` inside the range and those of `tgt` outside it. -/
def SnapshotApplied (src tgt result : KVStore) (start end_ : Bytes) : Prop :=
  ∀ kv, kv ∈ result.items ↔
    (kv ∈ src.items ∧ start ≤ kv.1 ∧ kv.1 < end_) ∨ (kv ∈ tgt.items ∧ ¬ (start ≤ kv.1 ∧ kv.1 < end_))

/-- Setting the pairs of `src` in `[start, end_)`, in key order, into a store
that holds `tgt` outside the range gives the snapshot's result. -/
theorem snapshotApplied_foldl_set {src tgt t : KVStore} {start end_ : Bytes}
    (ht : ∀ kv, kv ∈ t.items ↔ kv ∈ tgt.items ∧ ¬ (start ≤ kv.1 ∧ kv.1 < end_)) :
    SnapshotApplied src tgt ((src.range start end_).foldl (fun db kv => db.set kv.1 kv.2) t)
      start end_ := by
  intro kv
  have hdistinct : (src.range start end_).Pairwise (fun a b => a.1 ≠ b.1) :=
    (KVStore.range_sorted src start end_).imp ne_of_lt
  change kv ∈ ((src.range start end_).foldl (fun t x => t.replaceOrInsert x) t).items ↔ _
  rw [OrderedSet.mem_foldl_replaceOrInsert t hdistinct, KVStore.mem_range, ht]
  constructor
  · rintro (hsrc | ⟨htgt, -⟩)
    · exact Or.inl hsrc
    · exact Or.inr htgt
  · rintro (hsrc | htgt)
    · exact Or.inl hsrc
    -- a pair of `tgt` outside the range shares its key with no pair set
    · exact Or.inr ⟨htgt, fun x hx hkey => htgt.2 (hkey ▸ (KVStore.mem_range.mp hx).2)⟩

/-- The pairs of a range that starts at a non-empty key have non-empty keys. -/
theorem representable_of_range {src : KVStore} {start end_ : Bytes} (hstart : start ≠ [])
    (hpairs : ∀ kv ∈ src.range start end_, kv.2 ≠ [] ∧ kv.1.length < 2 ^ 32 ∧ kv.2.length < 2 ^ 32) :
    ∀ kv ∈ src.range start end_, Representable kv := by
  intro kv hkv
  obtain ⟨hvalue, hklen, hvlen⟩ := hpairs kv hkv
  have hle : start ≤ kv.1 := (KVStore.mem_range.mp hkv).2.1
  exact ⟨ne_nil_of_lt (lt_of_lt_of_le (nil_lt_iff.mpr hstart) hle), hvalue, hklen, hvlen⟩

theorem applySnapshot_createSnapshot {src tgt : KVStore} {start end_ : Bytes}
    (hstart : start ≠ []) (hend : end_ ≠ []) (hlen : start.length < 2 ^ 32 ∧ end_.length < 2 ^ 32)
    (hpairs : ∀ kv ∈ src.range start end_, kv.2 ≠ [] ∧ kv.1.length < 2 ^ 32 ∧ kv.2.length < 2 ^ 32) :
    (∃ result, Pebble.applySnapshot (Pebble.createSnapshot src start end_) tgt = some (result, none) ∧
      SnapshotApplied src tgt result start end_) ∧
    (∃ result, Mem.applySnapshot (Mem.createSnapshot src start end_) tgt = some (result, none) ∧
      SnapshotApplied src tgt result start end_) := by
  have hrep := representable_of_range hstart hpairs
  constructor
  · refine ⟨_, applySnapshotWith_snapshotFile _ _ hstart hend hlen hrep tgt, ?_⟩
    exact snapshotApplied_foldl_set fun kv => KVStore.mem_deleteRange
  · -- the mem storage walks the same pairs with Scan, and Put is Set
    rw [Mem.createSnapshot, KVStore.scan_eq_range]
    refine ⟨_, applySnapshotWith_snapshotFile _ _ hstart hend hlen hrep tgt, ?_⟩
    exact snapshotApplied_foldl_set fun kv => KVStore.mem_rangeDelete

theorem applySnapshot_createSnapshot_two_stores :
    (∃ result, Pebble.applySnapshot (Pebble.createSnapshot
        ((KVStore.empty.set [1] [7]).set [3] [9]) [1] [4]) (KVStore.empty.set [2] [4]) =
          some (result, none) ∧
      SnapshotApplied ((KVStore.empty.set [1] [7]).set [3] [9]) (KVStore.empty.set [2] [4])
        result [1] [4]) ∧
    (∃ result, Mem.applySnapshot (Mem.createSnapshot
        ((KVStore.empty.set [1] [7]).set [3] [9]) [1] [4]) (KVStore.empty.set [2] [4]) =
          some (result, none) ∧
      SnapshotApplied ((KVStore.empty.set [1] [7]).set [3] [9]) (KVStore.empty.set [2] [4])
        result [1] [4]) :=
  applySnapshot_createSnapshot (by decide) (by decide) (by decide) (by decide)

/-- A pebble store may hold an empty value. Its snapshot has an empty value
field, which `ApplySnapshot` rejects after it has already deleted the range
from the target: the target loses its pair and gains none. -/
theorem applySnapshot_empty_value_rejected :
    (Pebble.applySnapshot (Pebble.createSnapshot (KVStore.empty.set [1] []) [1] [2])
      (KVStore.empty.set [1] [5])).map (fun r => (r.1.items, r.2)) =
      some ([], some .missingValue) := by
  decide

/-! ## `readBytes`, `Read` by `Read`

`readBytes` reads the four header bytes with one `Read`, then calls `Read`
into the rest of its buffer until it has as many bytes as the header says.
`io.EOF` is not an error to it, and the memory file system's `Read` fails in
no other way. When the file ends before the field does, every later `Read`
returns zero bytes and `io.EOF`, and the loop goes on forever. -/

/-- `File.Read` of the memory file system at offset `pos` into a buffer of
`len` bytes: the bytes copied, and whether it returns `io.EOF`, which it does
exactly at the end of the file. -/
def fileRead (file : Bytes) (pos len : Nat) : Bytes × Bool :=
  if file.length ≤ pos then ([], true) else ((file.drop pos).take len, false)

/-- The loop of `readBytes` after the header, with `fuel` the `Read` calls it
may still make: the data and the offset once it has `total` bytes, and `none`
while it has not. -/
def readBodyLoop (file : Bytes) (total : Nat) : Nat → Nat → Bytes → Option (Bytes × Nat)
  | 0, _, _ => none
  | fuel + 1, pos, data =>
    let n := (fileRead file pos (total - data.length)).1
    if data.length + n.length = total then some (data ++ n, pos + n.length)
    else readBodyLoop file total fuel (pos + n.length) (data ++ n)

/-- `readBytes` at offset `pos`, whose body loop may make `fuel` calls of
`Read`. -/
def readBytesFuel (file : Bytes) (pos fuel : Nat) : Option (Bytes × Nat) :=
  let (size, eof) := fileRead file pos 4
  if size.length = 0 ∧ eof = true then some ([], pos)
  else
    let total := natOfBytes (size ++ List.replicate (4 - size.length) 0)
    readBodyLoop file total fuel (pos + size.length) []

section ReadLoop

variable {file : Bytes}

theorem length_fileRead (pos len : Nat) : (fileRead file pos len).1.length = min len (file.length - pos) := by
  unfold fileRead
  split_ifs with h
  · simp; omega
  · simp

/-- A field that fits in the rest of the file is read whole by the next
`Read`. -/
theorem readBodyLoop_fits {total pos : Nat} {data : Bytes} (hle : data.length ≤ total)
    (hfit : total - data.length ≤ file.length - pos) (fuel : Nat) :
    readBodyLoop file total (fuel + 1) pos data =
      some (data ++ (file.drop pos).take (total - data.length), pos + (total - data.length)) := by
  have hn := @length_fileRead file pos (total - data.length)
  have hread : (fileRead file pos (total - data.length)).1 = (file.drop pos).take (total - data.length) := by
    unfold fileRead
    split_ifs with h
    · -- at the end of the file nothing is left to read
      rw [show total - data.length = 0 by omega, List.take_zero]
    · rfl
  unfold readBodyLoop
  rw [if_pos (by omega), hread, ← hread, hn, Nat.min_eq_left hfit]

/-- A field longer than the rest of the file is never read whole: after the
first `Read` has copied what is left, every `Read` copies nothing. -/
theorem readBodyLoop_truncated {total : Nat} :
    ∀ (fuel pos : Nat) (data : Bytes), file.length - pos < total - data.length →
      readBodyLoop file total fuel pos data = none
  | 0, _, _, _ => rfl
  | fuel + 1, pos, data, h => by
    have hn := @length_fileRead file pos (total - data.length)
    unfold readBodyLoop
    rw [if_neg (by omega)]
    exact readBodyLoop_truncated fuel _ _ (by simp only [List.length_append]; omega)

/-- The `Read`-level loop returns what `readBytes` returns, after one `Read`
of the body; when `readBytes` has no result the loop never returns. -/
theorem readBytesFuel_succ (pos fuel : Nat) : readBytesFuel file pos (fuel + 1) = readBytes file pos := by
  unfold readBytesFuel readBytes fileRead
  by_cases hend : file.length ≤ pos
  · simp [hend]
  · have hsize : ((file.drop pos).take 4).length ≠ 0 := by simp; omega
    simp only [hend, if_false, Bool.false_eq_true, and_false]
    split_ifs with hfit
    · rw [readBodyLoop_fits (by simp) (by simpa using hfit)]
      simp
    · exact readBodyLoop_truncated _ _ _ (by simp only [List.length_nil, Nat.sub_zero]; omega)

theorem readBytesFuel_of_readBytes_eq_none {pos : Nat} (h : readBytes file pos = none) (fuel : Nat) :
    readBytesFuel file pos fuel = none := by
  cases fuel with
  | succ fuel => rw [readBytesFuel_succ, h]
  | zero =>
    -- without a `Read` the body loop cannot return, and the file does not end at `pos`
    have hend : ¬ file.length ≤ pos := fun hend => by simp [readBytes, hend] at h
    simp [readBytesFuel, fileRead, hend, readBodyLoop]

end ReadLoop

/-- `ApplySnapshot` does not return when the loop of `readBytes` on its end
field does not. -/
theorem applySnapshotWith_of_readBytes_end_none (deleteRange set : KVStore → Bytes → Bytes → KVStore)
    {file start : Bytes} {pos : Nat} (db : KVStore) (hstart : readBytes file 0 = some (start, pos))
    (hne : start ≠ []) (hend : readBytes file pos = none) :
    applySnapshotWith deleteRange set file db = none := by
  unfold applySnapshotWith
  simp only [Option.bind_eq_bind]
  rw [hstart, Option.bind_some]
  dsimp only
  rw [if_neg (by simpa using hne), hend, Option.bind_none]

/-- A snapshot file cut inside its end field, nine bytes of ten: the header of
the end field announces one byte the file no longer has. Its start field
reads back, but the loop of `readBytes` on the end field never returns,
whatever the number of `Read` calls, and with it `ApplySnapshot` of both
storages. -/
theorem applySnapshot_truncated_never_returns :
    readBytes ((snapshotFile [1] [2] []).take 9) 0 = some ([1], 5) ∧
      (∀ fuel, readBytesFuel ((snapshotFile [1] [2] []).take 9) 5 fuel = none) ∧
      (∀ db, Pebble.applySnapshot ((snapshotFile [1] [2] []).take 9) db = none) ∧
      ∀ kv, Mem.applySnapshot ((snapshotFile [1] [2] []).take 9) kv = none := by
  generalize hf : (snapshotFile [1] [2] []).take 9 = file
  have hfile : file = [0, 0, 0, 1, 1, 0, 0, 0, 1] := by rw [← hf]; decide
  have hstart : readBytes file 0 = some ([1], 5) := by rw [hfile]; decide
  have hend : readBytes file 5 = none := by rw [hfile]; decide
  exact ⟨hstart, readBytesFuel_of_readBytes_eq_none hend,
    fun db => applySnapshotWith_of_readBytes_end_none _ _ db hstart (by simp) hend,
    fun kv => applySnapshotWith_of_readBytes_end_none _ _ kv hstart (by simp) hend⟩

end MatrixCube.Storage
