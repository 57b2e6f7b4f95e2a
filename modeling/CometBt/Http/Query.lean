import CometBt.Http.Header

/-!
# The query of a request (`src/http_parser.cpp`)

`query_params_s` keeps the values of its keys in a map and, so that the query comes out in the order
of insertion, the keys in a vector. `operator[]` appends the key to the vector at every access.

* `run_lookup`: the map holds for each key the value assigned to it last.
* **`toString_ordered_iff`**: the query is that of an ordered map exactly if no key is accessed
  twice. The request to the tracker is made so (`announceAccesses_nodup`).
-/

namespace CometBt.Http

/-- `'='`. -/
def equals : UInt8 := 0x3D
/-- `'&'`. -/
def ampersand : UInt8 := 0x26

/-! ## The model -/

/-- `query_params_s`. -/
structure QueryParams where
  values : Header := ∅
  insertOrder : List (List UInt8) := []

/-- `m_values[key]`: a missing key is added with an empty value. -/
def index (values : Header) (key : List UInt8) : List UInt8 × Header :=
  match values.lookup key with
  | some value => (value, values)
  | none => ([], values.insert key [])

namespace QueryParams

/-- `operator[]`: the value referred to, and the parameters with the key. -/
def access (q : QueryParams) (key : List UInt8) : List UInt8 × QueryParams :=
  let (value, values) := index q.values key
  (value, { values, insertOrder := q.insertOrder ++ [key] })

/-- `q[key] = value`. -/
def assign (q : QueryParams) (key value : List UInt8) : QueryParams :=
  let (_, q) := q.access key
  { q with values := q.values.insert key value }

/-- The loop of `to_string` over the keys, with what has been written. -/
def toStringLoop : List (List UInt8) → Header → List UInt8 → List UInt8
  | [], _, out => out
  | key :: keys, values, out =>
    let (value, values) := index values key
    toStringLoop keys values (out ++ (key ++ equals :: (value ++ [ampersand])))

/-- `to_string`. -/
def toString (q : QueryParams) : List UInt8 := toStringLoop q.insertOrder q.values []

end QueryParams

/-- `GET` and a blank. -/
def get : List UInt8 := [0x47, 0x45, 0x54, space]

/-- A blank, `HTTP/1.1` and CRLF. -/
def version : List UInt8 := [space, 0x48, 0x54, 0x54, 0x50, 0x2F, 0x31, 0x2E, 0x31, cr, lf]

/-- `Host: `, the host up to a null byte, and the blank line. -/
def hostLine (host : List UInt8) : List UInt8 :=
  [0x48, 0x6F, 0x73, 0x74, colon, space] ++ host.takeWhile (· ≠ 0) ++ [cr, lf, cr, lf]

/-- `build_request`. -/
def buildRequest (host path : List UInt8) (query : QueryParams) : List UInt8 :=
  get ++ path ++ [0x3F] ++ query.toString ++ version ++ hostLine host

/-! ## Accesses -/

/-- A use of `operator[]`. -/
inductive Access where
  | read (key : List UInt8)
  | assign (key value : List UInt8)
  deriving DecidableEq

namespace Access

/-- The key accessed. -/
def key : Access → List UInt8
  | .read key => key
  | .assign key _ => key

/-- The value assigned to a key. -/
def value? (key : List UInt8) : Access → Option (List UInt8)
  | .read _ => none
  | .assign k value => if k = key then some value else none

end Access

open QueryParams

/-- What an access does to the parameters. -/
def QueryParams.step (q : QueryParams) : Access → QueryParams
  | .read key => (q.access key).2
  | .assign key value => q.assign key value

/-- The parameters after the accesses. -/
def run (as : List Access) : QueryParams := as.foldl QueryParams.step {}

/-- The value assigned last to a key; a key that is only read has the empty one. -/
def lastValue (as : List Access) (key : List UInt8) : List UInt8 :=
  (as.reverse.findSome? (Access.value? key)).getD []

/-- A parameter as the query writes it. -/
def param (as : List Access) (key : List UInt8) : List UInt8 :=
  key ++ equals :: (lastValue as key ++ [ampersand])

/-- **The query of an ordered map**: each key accessed once, in the order of insertion, with the
last value assigned to it. -/
def ordered (as : List Access) : List UInt8 := (as.map Access.key).eraseDups.flatMap (param as)

variable {values : Header} {q : QueryParams} {key : List UInt8} {as : List Access}

theorem index_fst (values : Header) (key : List UInt8) :
    (index values key).1 = (values.lookup key).getD [] := by
  unfold index
  cases values.lookup key <;> rfl

/-- Adding a key with an empty value changes no value that is read. -/
theorem index_snd_lookup (values : Header) (key k : List UInt8) :
    (((index values key).2).lookup k).getD [] = (values.lookup k).getD [] := by
  unfold index
  cases h : values.lookup key with
  | some value => rfl
  | none =>
    by_cases hk : k = key
    · subst hk
      rw [Finmap.lookup_insert, h]
      rfl
    · rw [Finmap.lookup_insert_of_ne _ hk]

theorem run_concat (as : List Access) (a : Access) : run (as ++ [a]) = (run as).step a := by
  unfold run
  rw [List.foldl_append]
  rfl

theorem lastValue_concat (as : List Access) (a : Access) (key : List UInt8) :
    lastValue (as ++ [a]) key = (a.value? key).getD (lastValue as key) := by
  unfold lastValue
  rw [List.reverse_append, List.reverse_singleton, List.singleton_append, List.findSome?_cons]
  cases a.value? key <;> rfl

/-- **The map holds the values assigned last.** -/
theorem run_lookup (as : List Access) (key : List UInt8) :
    ((run as).values.lookup key).getD [] = lastValue as key := by
  induction as using List.reverseRecOn with
  | nil => rfl
  | append_singleton as a ih =>
    rw [run_concat, lastValue_concat, ← ih]
    cases a with
    | read k => exact index_snd_lookup _ k key
    | assign k value =>
      change ((((run as).access k).2.values.insert k value).lookup key).getD [] = _
      by_cases hk : k = key
      · subst hk
        rw [Finmap.lookup_insert, Access.value?, if_pos rfl]
        rfl
      · rw [Finmap.lookup_insert_of_ne _ (Ne.symm hk), Access.value?, if_neg hk]
        exact index_snd_lookup _ k key

/-- The vector holds every key accessed. -/
theorem run_insertOrder (as : List Access) : (run as).insertOrder = as.map Access.key := by
  induction as using List.reverseRecOn with
  | nil => rfl
  | append_singleton as a ih =>
    rw [run_concat, List.map_append, ← ih]
    cases a <;> rfl

/-- The loop writes the keys it is given, each with its value. -/
theorem toStringLoop_eq (keys : List (List UInt8)) (out : List UInt8)
    (hvalues : ∀ k, (values.lookup k).getD [] = lastValue as k) :
    toStringLoop keys values out = out ++ keys.flatMap (param as) := by
  induction keys generalizing values out with
  | nil => exact (List.append_nil out).symm
  | cons k keys ih =>
    have hnext : ∀ k', (((index values k).2).lookup k').getD [] = lastValue as k' := fun k' =>
      (index_snd_lookup values k k').trans (hvalues k')
    have hloop : toStringLoop (k :: keys) values out = toStringLoop keys (index values k).2
        (out ++ (k ++ equals :: ((index values k).1 ++ [ampersand]))) := rfl
    rw [hloop, ih _ hnext, index_fst, hvalues, List.flatMap_cons, List.append_assoc]
    rfl

/-- **The query** writes a key once for each access. -/
theorem toString_run (as : List Access) :
    (run as).toString = (as.map Access.key).flatMap (param as) := by
  unfold QueryParams.toString
  rw [toStringLoop_eq _ _ (run_lookup as), run_insertOrder]
  rfl

/-! ## The ordered map -/

section EraseDups

variable {α β : Type}

theorem eraseDups_sublist [BEq α] [LawfulBEq α] (l : List α) : l.eraseDups.Sublist l := by
  induction hn : l.length using Nat.strong_induction_on generalizing l with
  | _ n ih =>
    cases l with
    | nil => exact List.Sublist.refl _
    | cons a as =>
      rw [List.eraseDups_cons]
      refine List.Sublist.cons_cons a ?_
      have hlt : (as.filter fun b => !b == a).length < n := by
        rw [← hn]
        exact Nat.lt_succ_of_le (List.length_filter_le _ _)
      exact (ih _ hlt _ rfl).trans List.filter_sublist

/-- A list keeps all of its items exactly if none is repeated. -/
theorem eraseDups_eq_self_iff [BEq α] [LawfulBEq α] (l : List α) : l.eraseDups = l ↔ l.Nodup := by
  induction l with
  | nil => simp
  | cons a as ih =>
    rw [List.eraseDups_cons, List.cons.injEq, List.nodup_cons]
    constructor
    · rintro ⟨-, h⟩
      have hlen : as.length ≤ (as.filter fun b => !b == a).length := by
        calc as.length = (as.filter fun b => !b == a).eraseDups.length := by rw [h]
          _ ≤ _ := (eraseDups_sublist _).length_le
      have hfilter : (as.filter fun b => !b == a) = as :=
        List.filter_sublist.eq_of_length_le hlen
      rw [hfilter] at h
      refine ⟨fun hmem => ?_, ih.mp h⟩
      have := List.filter_eq_self.mp hfilter a hmem
      simp at this
    · rintro ⟨hmem, hnodup⟩
      have hfilter : (as.filter fun b => !b == a) = as :=
        List.filter_eq_self.mpr fun b hb => by simpa using ne_of_mem_of_not_mem hb hmem
      rw [hfilter]
      exact ⟨rfl, ih.mpr hnodup⟩

/-- Leaving out an item that something is written for makes what is written shorter. -/
theorem length_flatMap_lt {f : α → List β} (hf : ∀ a, f a ≠ []) {l l' : List α}
    (h : l.Sublist l') (hne : l ≠ l') : (l.flatMap f).length < (l'.flatMap f).length := by
  induction h with
  | slnil => exact absurd rfl hne
  | @cons l₁ l₂ a hsub _ =>
    have hle := (hsub.flatMap f).length_le
    have hpos := List.length_pos_iff.mpr (hf a)
    rw [List.flatMap_cons, List.length_append]
    omega
  | @cons_cons l₁ l₂ a _ ih =>
    have hlt := ih fun heq => hne (congrArg (a :: ·) heq)
    rw [List.flatMap_cons, List.flatMap_cons, List.length_append, List.length_append]
    omega

end EraseDups

theorem toString_of_nodup (h : (as.map Access.key).Nodup) : (run as).toString = ordered as := by
  unfold ordered
  rw [toString_run, (eraseDups_eq_self_iff _).mpr h]

/-- **The query is that of the ordered map exactly if no key is accessed twice.** -/
theorem toString_ordered_iff (as : List Access) :
    (run as).toString = ordered as ↔ (as.map Access.key).Nodup := by
  refine ⟨fun h => ?_, toString_of_nodup⟩
  rw [← eraseDups_eq_self_iff]
  by_contra hne
  have hlt := length_flatMap_lt (f := param as) (fun k => by simp [param])
    (eraseDups_sublist (as.map Access.key)) hne
  rw [← toString_run, h] at hlt
  exact absurd hlt (lt_irrefl _)

/-- **A key that is read after it has been assigned comes twice.** -/
theorem key_twice : (run [.assign [0x61] [0x31], .read [0x61]]).toString =
    [0x61, 0x3D, 0x31, 0x26, 0x61, 0x3D, 0x31, 0x26] ∧
    ordered [.assign [0x61] [0x31], .read [0x61]] = [0x61, 0x3D, 0x31, 0x26] := by
  rw [toString_run]
  exact ⟨by decide, by decide⟩

/-! ## The tracker's request -/

/-- The accesses of `setup_peerinfo`: `info_hash`, `peer_id`, `uploaded`, `downloaded`, `left`,
`port` and `compact`. -/
def announceAccesses (infoHash peerId left : List UInt8) : List Access :=
  [.assign [0x69, 0x6E, 0x66, 0x6F, 0x5F, 0x68, 0x61, 0x73, 0x68] infoHash,
    .assign [0x70, 0x65, 0x65, 0x72, 0x5F, 0x69, 0x64] peerId,
    .assign [0x75, 0x70, 0x6C, 0x6F, 0x61, 0x64, 0x65, 0x64] [0x30],
    .assign [0x64, 0x6F, 0x77, 0x6E, 0x6C, 0x6F, 0x61, 0x64, 0x65, 0x64] [0x30],
    .assign [0x6C, 0x65, 0x66, 0x74] left,
    .assign [0x70, 0x6F, 0x72, 0x74] [0x34, 0x34, 0x33],
    .assign [0x63, 0x6F, 0x6D, 0x70, 0x61, 0x63, 0x74] [0x31]]

/-- The request to the tracker accesses no key twice. -/
theorem announceAccesses_nodup (infoHash peerId left : List UInt8) :
    ((announceAccesses infoHash peerId left).map Access.key).Nodup := by
  simp only [announceAccesses, List.map_cons, List.map_nil, Access.key]
  decide

/-- **The request to the tracker** has its parameters in order. -/
theorem buildRequest_announce (host path infoHash peerId left : List UInt8) :
    buildRequest host path (run (announceAccesses infoHash peerId left)) =
      get ++ path ++ [0x3F] ++ ordered (announceAccesses infoHash peerId left) ++ version ++
        hostLine host := by
  unfold buildRequest
  rw [toString_of_nodup (announceAccesses_nodup infoHash peerId left)]

end CometBt.Http
