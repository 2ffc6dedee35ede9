import MatrixCube.Storage.KV

/-! # Prophet metadata storage

`storage.go` keeps prophet's metadata under a root path in a KV store: the
in-memory `memStorage` (`kv_mem.go`, a google/btree of string pairs) or the
etcd store (`kv_etcd.go`). Keys are built with `path.Join`, and
`LoadRangeByPrefix` pages through a prefix with `LoadRange`, passing each key
through `filepath.Base` and resuming after the last key of a full page at
`path.Join(rootPath, lastKey + "\x00")`.

That resume key is the successor of the last key only when `LoadRange` returns
keys relative to the root path. The etcd store trims the root path, the memory
store does not, so after a full page the memory store resumes at
`rootPath + lastKey`, past every key under the root, and the load stops early.

Go strings are byte strings, compared byte by byte, so keys are `Bytes`.
-/

namespace MatrixCube.Prophet

open MatrixCube.Storage

/-- The bytes of an ASCII literal of the source. -/
def ascii (s : String) : Bytes := s.toList.map fun c => c.toNat.toUInt8

/-- `'/'`. -/
def slash : UInt8 := 47
/-- `'.'`. -/
def dot : UInt8 := 46

/-! ## Paths -/

/-- The segment stack of `path.Clean` (top first): empty and `.` segments
vanish, `..` removes the segment before it, and a `..` with nothing to remove
stays in a relative path and vanishes at the root. -/
def cleanSegments (rooted : Bool) : List Bytes → List Bytes → List Bytes
  | acc, [] => acc
  | acc, s :: ss =>
    if s = [] ∨ s = [dot] then cleanSegments rooted acc ss
    else if s = [dot, dot] then
      match acc with
      | a :: as => if a = [dot, dot] then cleanSegments rooted (s :: acc) ss else cleanSegments rooted as ss
      | [] => if rooted then cleanSegments rooted [] ss else cleanSegments rooted [s] ss
    else cleanSegments rooted (s :: acc) ss

/-- `path.Clean`. -/
def pathClean (p : Bytes) : Bytes :=
  if p = [] then [dot]
  else
    let rooted := p.head? = some slash
    let body := [slash].intercalate (cleanSegments rooted [] (p.splitOn slash)).reverse
    if rooted then slash :: body
    else if body = [] then [dot] else body

/-- `path.Join`: the elements from the first non-empty one, joined by slashes
and cleaned. -/
def pathJoin (elems : List Bytes) : Bytes :=
  match elems.dropWhile (· = []) with
  | [] => []
  | es => pathClean ([slash].intercalate es)

example : pathJoin [ascii "/test/custom", ascii "a/../b//c/."] = ascii "/test/custom/b/c" := by decide

/-- `filepath.Base` on a slash-separated path: the last element after
trailing slashes are dropped. -/
def filepathBase (p : Bytes) : Bytes :=
  if p = [] then [dot]
  else
    let p := (p.reverse.dropWhile (· = slash)).reverse
    let p := (p.reverse.takeWhile (· ≠ slash)).reverse
    if p = [] then [slash] else p

example : filepathBase (ascii "custom/a") = ascii "a" := by decide

/-- `strings.TrimPrefix`. -/
def trimPrefix (s pre : Bytes) : Bytes :=
  if pre.isPrefixOf s then s.drop pre.length else s

/-- The range end of `getPrefix`, on the reversed key: the last byte below
`0xff` is incremented and the bytes after it dropped. -/
def prefixEndRev : List UInt8 → Option (List UInt8)
  | [] => none
  | b :: bs => if b < 0xff then some ((b + 1) :: bs) else prefixEndRev bs

/-- `clientv3.GetPrefixRangeEnd`: `"\x00"` (no end) when every byte is `0xff`. -/
def getPrefixRangeEnd (pre : Bytes) : Bytes :=
  match prefixEndRev pre.reverse with
  | some e => e.reverse
  | none => [0]

example : getPrefixRangeEnd (ascii "/test/custom/") = ascii "/test/custom0" := by decide

/-! ## KV stores -/

/-- The two implementations of `KV`. -/
inductive KVImpl where
  | memStorage
  | etcdKV (rootPath : Bytes)
  deriving DecidableEq, Repr

/-- The key `etcdKV.LoadRange` returns for a stored key: without the root path
and the slash after it. -/
def etcdKeyName (rootPath k : Bytes) : Bytes :=
  trimPrefix (trimPrefix k rootPath) [slash]

/-- A page of `limit` pairs (all of them when `limit` is not positive). -/
def takeLimit {α : Type*} (limit : Int) (xs : List α) : List α :=
  if limit > 0 then xs.take limit.toNat else xs

/-- `LoadRange`. The memory store walks `[key, endKey)` of its btree; the etcd
store reads that range (from `key` on for the end `"\x00"`) and returns each
key by its `etcdKeyName`. -/
def KVImpl.loadRange (kv : KVImpl) (s : KVStore) (key endKey : Bytes) (limit : Int) :
    List (Bytes × Bytes) :=
  match kv with
  | .memStorage => takeLimit limit (s.range key endKey)
  | .etcdKV rootPath =>
    let items := if endKey = [0] then s.items.filter (fun kv => decide (key ≤ kv.1)) else s.range key endKey
    (takeLimit limit items).map fun kv => (etcdKeyName rootPath kv.1, kv.2)

/-- `storage`, with the content of its KV store. -/
structure PStorage where
  kv : KVImpl
  store : KVStore
  rootPath : Bytes

namespace PStorage

variable (st : PStorage)

/-- `NewTestStorage`: the memory store under `/test`. -/
def newTestStorage : PStorage := ⟨.memStorage, KVStore.empty, ascii "/test"⟩

/-- `customDataPath`. -/
def customDataPath : Bytes := st.rootPath ++ ascii "/custom"

/-- `PutCustomData`. -/
def putCustomData (key data : Bytes) : PStorage :=
  { st with store := st.store.put (pathJoin [st.customDataPath, key]) data }

/-- `RemoveCustomData`. -/
def removeCustomData (key : Bytes) : PStorage :=
  { st with store := st.store.delete (pathJoin [st.customDataPath, key]) }

/-- `BatchPutCustomData`: `key length != data length` when the lists differ in
length, else the puts of the batch in order. -/
def batchPutCustomData (keys data : List Bytes) : Except (Nat × Nat) PStorage :=
  if keys.length ≠ data.length then .error (keys.length, data.length)
  else .ok ((keys.zip data).foldl (fun st kd => st.putCustomData kd.1 kd.2) st)

/-- The loop of `LoadRangeByPrefix`, for at most `fuel` pages, returning the
calls of `f`; `none` where Go indexes the last key of an empty page. -/
def loadRangeByPrefixLoop (limit : Int) (endKey : Bytes) :
    Nat → Bytes → Option (List (Bytes × Bytes))
  | 0, _ => none
  | fuel + 1, nextKey =>
    let page := st.kv.loadRange st.store nextKey endKey limit
    let calls := page.map fun kv => (filepathBase kv.1, kv.2)
    if (page.length : Int) < limit then some calls
    else
      match page.getLast? with
      | none => none
      | some last =>
        (loadRangeByPrefixLoop limit endKey fuel (pathJoin [st.rootPath, last.1 ++ [0]])).map
          (calls ++ ·)

/-- `LoadRangeByPrefix`. -/
def loadRangeByPrefix (fuel : Nat) (limit : Int) (pre : Bytes) : Option (List (Bytes × Bytes)) :=
  st.loadRangeByPrefixLoop limit (getPrefixRangeEnd pre) fuel pre

/-- `LoadCustomData`. -/
def loadCustomData (fuel : Nat) (limit : Int) : Option (List (Bytes × Bytes)) :=
  st.loadRangeByPrefix fuel limit (st.customDataPath ++ [slash])

end PStorage

/-! ## Paging on the etcd store -/

namespace PStorage

variable {st : PStorage}

/-- On the etcd store, a page is the next `limit` pairs of the range, named by
their keys relative to the root. -/
theorem loadRange_etcd (hkv : st.kv = .etcdKV st.rootPath) {limit : Int} (hlimit : 0 < limit)
    {cur endKey : Bytes} (hend : endKey ≠ [0]) :
    st.kv.loadRange st.store cur endKey limit =
      ((st.store.range cur endKey).take limit.toNat).map fun kv => (etcdKeyName st.rootPath kv.1, kv.2) := by
  rw [hkv]
  simp [KVImpl.loadRange, hend, takeLimit, hlimit]

/-- The run lemma of `LoadRangeByPrefix` on the etcd store: where every stored
key resumes at its successor, the loop calls `f` once for each pair of the
range, in key order, given a page of fuel per pair. -/
theorem loadRangeByPrefixLoop_etcd (hkv : st.kv = .etcdKV st.rootPath) {limit : Int}
    (hlimit : 0 < limit) {endKey : Bytes} (hend : endKey ≠ [0]) :
    ∀ (fuel : Nat) (cur : Bytes),
      (∀ kv ∈ st.store.range cur endKey,
        pathJoin [st.rootPath, etcdKeyName st.rootPath kv.1 ++ [0]] = kv.1 ++ [0]) →
      (st.store.range cur endKey).length < fuel →
      st.loadRangeByPrefixLoop limit endKey fuel cur =
        some ((st.store.range cur endKey).map fun kv => (filepathBase (etcdKeyName st.rootPath kv.1), kv.2))
  | 0, _, _, hfuel => absurd hfuel (Nat.not_lt_zero _)
  | fuel + 1, cur, hresume, hfuel => by
    have hn : 0 < limit.toNat := by omega
    unfold loadRangeByPrefixLoop
    rw [loadRange_etcd hkv hlimit hend]
    simp only [List.length_map, List.length_take, List.map_map]
    by_cases hshort : (st.store.range cur endKey).length < limit.toNat
    · -- a short page is the rest of the range
      rw [if_pos (by omega), List.take_of_length_le hshort.le]
      rfl
    · -- a full page resumes at the successor of its last key
      obtain ⟨last, hlast⟩ : ∃ last, ((st.store.range cur endKey).take limit.toNat).getLast? = some last := by
        refine Option.isSome_iff_exists.mp (List.getLast?_isSome.mpr ?_)
        simp only [ne_eq, List.take_eq_nil_iff, not_or]
        exact ⟨by omega, List.ne_nil_of_length_pos (by omega)⟩
      have hmem := List.mem_of_mem_take (List.mem_of_getLast? hlast)
      rw [if_neg (by omega), List.getLast?_map, hlast]
      dsimp only [Option.map_some]
      have hrest := KVStore.range_succ_last _ _ _ _ hlast
      rw [hresume last hmem, loadRangeByPrefixLoop_etcd hkv hlimit hend fuel _
          (fun kv h => hresume kv (List.mem_of_mem_drop (hrest ▸ h)))
          (by rw [hrest, List.length_drop]; omega), hrest]
      conv => rhs; rw [← List.take_append_drop limit.toNat (st.store.range cur endKey)]
      rw [Option.map_some, List.map_append]
      rfl

/-- `GetPrefixRangeEnd` of a prefix ending in a slash ends in the byte after it. -/
theorem getPrefixRangeEnd_append_slash (p : Bytes) : getPrefixRangeEnd (p ++ [slash]) = p ++ [48] := by
  simp [getPrefixRangeEnd, prefixEndRev, slash]

/-- `LoadRangeByPrefix` on the etcd store, for a prefix ending in a slash and
every positive limit: where every stored key of the prefix range resumes at its
successor, `f` is called once for each pair of the range, in key order, with
the base name of its key. -/
theorem loadRangeByPrefix_etcd (hkv : st.kv = .etcdKV st.rootPath) {limit : Int} (hlimit : 0 < limit)
    (p : Bytes)
    (hresume : ∀ kv ∈ st.store.range (p ++ [slash]) (p ++ [48]),
      pathJoin [st.rootPath, etcdKeyName st.rootPath kv.1 ++ [0]] = kv.1 ++ [0])
    {fuel : Nat} (hfuel : (st.store.range (p ++ [slash]) (p ++ [48])).length < fuel) :
    st.loadRangeByPrefix fuel limit (p ++ [slash]) =
      some ((st.store.range (p ++ [slash]) (p ++ [48])).map fun kv =>
        (filepathBase (etcdKeyName st.rootPath kv.1), kv.2)) := by
  have hend : p ++ [48] ≠ [0] := by
    intro h
    have := congrArg List.getLast? h
    simp at this
  unfold loadRangeByPrefix
  rw [getPrefixRangeEnd_append_slash]
  exact loadRangeByPrefixLoop_etcd hkv hlimit hend fuel _ hresume hfuel

/-! ## Paging on the memory store -/

/-- On the memory store, `LoadCustomData` with limit 1 reports only the first of
two custom keys, for any fuel of two pages or more: the first page is full, so the loop resumes
at `path.Join("/test", "/test/custom/a\x00")`, above every key under
`/test/custom/`, and the next page is empty. -/
theorem loadCustomData_memStorage_stops_after_first_page :
    ((newTestStorage.putCustomData (ascii "a") (ascii "1")).putCustomData (ascii "b") (ascii "2")).store.items =
        [(ascii "/test/custom/a", ascii "1"), (ascii "/test/custom/b", ascii "2")] ∧
      ∀ n, ((newTestStorage.putCustomData (ascii "a") (ascii "1")).putCustomData
        (ascii "b") (ascii "2")).loadCustomData (n + 2) 1 = some [(ascii "a", ascii "1")] := by
  -- the full first page, then the empty one after the wrong resume key
  exact ⟨by decide, fun n => rfl⟩

end PStorage

end MatrixCube.Prophet
