import CometBt.Torrent.Tracker

/-!
# What a tracker reads of the request (`src/http_parser.cpp`, `src/torrent.cpp`)

The request is written by `build_request` from the host, the path and the parameters. `readRequest`
takes it apart as a server does: the method, the path, the parameters of the query, each at its
first `=`, and the host.

* **`readQuery_toString`**: the query of any accesses is read as the keys accessed, each with its
  last value, if no byte of them is taken for a delimiter.
* **`readRequest_announce`**: with the percent-encoded digest in `info_hash`, the tracker reads the
  parameters as they were set, and the digest. The host is to be without CR and null bytes.
-/

namespace CometBt.Torrent

open Lib
open Http (ampersand equals space cr lf stdToString)

/-! ## Reading a request -/

/-- A parameter of a query: what is in front of the first `=`, and what is behind it. -/
def readParam (s : List UInt8) : List UInt8 × List UInt8 :=
  (s.takeWhile (· ≠ equals), (s.dropWhile (· ≠ equals)).drop 1)

/-- The parameters of a query. -/
def readQuery (s : List UInt8) : List (List UInt8 × List UInt8) :=
  ((s.splitOnP (· = ampersand)).filter (· ≠ [])).map readParam

/-- A request as a server reads it. -/
structure Request where
  method : List UInt8
  path : List UInt8
  params : List (List UInt8 × List UInt8)
  host : List UInt8
  deriving DecidableEq, Repr

/-- `s` behind `front`, if it starts so. -/
def behind (front s : List UInt8) : Option (List UInt8) :=
  if front <+: s then some (s.drop front.length) else none

/-- `?`. -/
def question : UInt8 := 0x3F

/-- `info_hash`. -/
def infoHashParam : List UInt8 := [0x69, 0x6E, 0x66, 0x6F, 0x5F, 0x68, 0x61, 0x73, 0x68]
/-- `peer_id`. -/
def peerIdParam : List UInt8 := [0x70, 0x65, 0x65, 0x72, 0x5F, 0x69, 0x64]
/-- `uploaded`. -/
def uploadedParam : List UInt8 := [0x75, 0x70, 0x6C, 0x6F, 0x61, 0x64, 0x65, 0x64]
/-- `downloaded`. -/
def downloadedParam : List UInt8 := [0x64, 0x6F, 0x77, 0x6E, 0x6C, 0x6F, 0x61, 0x64, 0x65, 0x64]
/-- `left`. -/
def leftParam : List UInt8 := [0x6C, 0x65, 0x66, 0x74]
/-- `compact`. -/
def compactParam : List UInt8 := [0x63, 0x6F, 0x6D, 0x70, 0x61, 0x63, 0x74]

/-- `Host: `. -/
def hostField : List UInt8 := [0x48, 0x6F, 0x73, 0x74, 0x3A, space]

/-- A request of one field, the host. -/
def readRequest (msg : List UInt8) : Option Request := do
  let method := msg.takeWhile (· ≠ space)
  let rest ← behind [space] (msg.dropWhile (· ≠ space))
  let target := rest.takeWhile (· ≠ space)
  let rest ← behind Http.version (rest.dropWhile (· ≠ space))
  let query ← behind [question] (target.dropWhile (· ≠ question))
  let rest ← behind hostField rest
  let host := rest.takeWhile (· ≠ cr)
  if rest.dropWhile (· ≠ cr) = [cr, lf, cr, lf] then
    return ⟨method, target.takeWhile (· ≠ question), readQuery query, host⟩
  else none

/-! ## The query -/

/-- A key and a value without the bytes that delimit them. -/
structure Plain (key value : List UInt8) : Prop where
  key_equals : equals ∉ key
  key_ampersand : ampersand ∉ key
  value_ampersand : ampersand ∉ value

theorem takeWhile_ne {c : UInt8} {xs ys : List UInt8} (h : c ∉ xs) :
    (xs ++ c :: ys).takeWhile (· ≠ c) = xs :=
  takeWhile_split (fun _ ha => decide_eq_true (ne_of_mem_of_not_mem ha h)) (by simp)

theorem dropWhile_ne {c : UInt8} {xs ys : List UInt8} (h : c ∉ xs) :
    (xs ++ c :: ys).dropWhile (· ≠ c) = c :: ys :=
  dropWhile_split (fun _ ha => decide_eq_true (ne_of_mem_of_not_mem ha h)) (by simp)

theorem behind_append (front s : List UInt8) : behind front (front ++ s) = some s := by
  unfold behind
  rw [if_pos (List.prefix_append front s), List.drop_left]

/-- **A parameter** is read at its first `=`. -/
theorem readParam_append {key value : List UInt8} (h : equals ∉ key) :
    readParam (key ++ equals :: value) = (key, value) := by
  unfold readParam
  rw [takeWhile_ne h, dropWhile_ne h]
  rfl

/-- **The query of any accesses** is read as the keys accessed, each with its last value. -/
theorem readQuery_toString {as : List Http.Access}
    (h : ∀ a ∈ as, Plain a.key (Http.lastValue as a.key)) :
    readQuery (Http.run as).toString =
      as.map fun a => (a.key, Http.lastValue as a.key) := by
  rw [Http.toString_run]
  -- The values are those of all the accesses, while the induction takes one access after another.
  have hparams : ∀ bs : List Http.Access, (∀ a ∈ bs, Plain a.key (Http.lastValue as a.key)) →
      readQuery ((bs.map Http.Access.key).flatMap (Http.param as)) =
        bs.map fun a => (a.key, Http.lastValue as a.key) := by
    intro bs hbs
    induction bs with
    | nil => rfl
    | cons b bs ih =>
      obtain ⟨hb, hbs⟩ := List.forall_mem_cons.mp hbs
      have hsplit : ((b :: bs).map Http.Access.key).flatMap (Http.param as) =
          (b.key ++ equals :: Http.lastValue as b.key) ++
            ampersand :: (bs.map Http.Access.key).flatMap (Http.param as) := by
        rw [List.map_cons, List.flatMap_cons]
        unfold Http.param
        simp only [List.append_assoc, List.cons_append, List.nil_append]
      have hplain : ∀ c ∈ b.key ++ equals :: Http.lastValue as b.key,
          decide (c = ampersand) = false := by
        intro c hc
        refine decide_eq_false fun heq => ?_
        rw [heq] at hc
        rcases List.mem_append.mp hc with hc | hc
        · exact hb.key_ampersand hc
        · rcases List.mem_cons.mp hc with hc | hc
          · exact absurd hc (by decide)
          · exact hb.value_ampersand hc
      have hne : b.key ++ equals :: Http.lastValue as b.key ≠ [] := by simp
      have ih := ih hbs
      unfold readQuery at ih ⊢
      rw [hsplit, List.splitOnP_append_cons_of_forall_mem hplain ampersand (by decide),
        List.filter_cons, if_pos (decide_eq_true hne), List.map_cons, List.map_cons, ih,
        readParam_append hb.key_equals]
  exact hparams as h

/-- **A key accessed twice** is read twice, with its last value. -/
theorem readQuery_toString_twice :
    readQuery (Http.run [.assign [0x61] [0x31], .assign [0x61] [0x32]]).toString =
      [([0x61], [0x32]), ([0x61], [0x32])] :=
  readQuery_toString
    (List.forall_mem_cons.mpr ⟨⟨by decide, by decide, by decide⟩,
      List.forall_mem_cons.mpr ⟨⟨by decide, by decide, by decide⟩, by simp⟩⟩)

/-! ## The request -/

theorem notMem_toString {c : UInt8} {as : List Http.Access} (hequals : c ≠ equals)
    (hampersand : c ≠ ampersand) (h : ∀ a ∈ as, c ∉ a.key ∧ c ∉ Http.lastValue as a.key) :
    c ∉ (Http.run as).toString := by
  rw [Http.toString_run]
  intro hmem
  obtain ⟨key, hkey, hc⟩ := List.mem_flatMap.mp hmem
  obtain ⟨a, ha, rfl⟩ := List.mem_map.mp hkey
  obtain ⟨hkey, hvalue⟩ := h a ha
  unfold Http.param at hc
  rcases List.mem_append.mp hc with hc | hc
  · exact hkey hc
  · rcases List.mem_cons.mp hc with hc | hc
    · exact hequals hc
    · rcases List.mem_append.mp hc with hc | hc
      · exact hvalue hc
      · exact hampersand (List.mem_singleton.mp hc)

/-- `GET`. -/
def getMethod : List UInt8 := [0x47, 0x45, 0x54]

/-- **A request is read back**, if its parts have no byte that delimits them. -/
theorem readRequest_build {host path : List UInt8} {q : Http.QueryParams}
    (hpath : space ∉ path ∧ question ∉ path) (hquery : space ∉ q.toString)
    (hhost : 0 ∉ host ∧ cr ∉ host) :
    readRequest (Http.buildRequest host path q) =
      some ⟨getMethod, path, readQuery q.toString, host⟩ := by
  have hnull : host.takeWhile (· ≠ 0) = host :=
    List.takeWhile_eq_self_iff.mpr fun c hc => decide_eq_true (ne_of_mem_of_not_mem hc hhost.1)
  obtain ⟨tail, htail⟩ : ∃ tail, tail = [0x48, 0x54, 0x54, 0x50, 0x2F, 0x31, 0x2E, 0x31, cr, lf] ++
    (hostField ++ (host ++ cr :: [lf, cr, lf])) := ⟨_, rfl⟩
  have hmsg : Http.buildRequest host path q =
      getMethod ++ space :: ((path ++ question :: q.toString) ++ space :: tail) := by
    unfold Http.buildRequest Http.hostLine
    rw [hnull, htail]
    simp [getMethod, Http.get, Http.version, hostField, question, Http.colon, List.append_assoc]
  have hversion : behind Http.version (space :: tail) =
      some (hostField ++ (host ++ cr :: [lf, cr, lf])) := by
    rw [htail]
    exact behind_append Http.version _
  have htarget : space ∉ path ++ question :: q.toString := by
    intro hmem
    rcases List.mem_append.mp hmem with hmem | hmem
    · exact hpath.1 hmem
    · rcases List.mem_cons.mp hmem with heq | hmem
      · exact absurd heq (by decide)
      · exact hquery hmem
  have hmethod : space ∉ getMethod := by decide
  have hspace : ∀ s, behind [space] (space :: s) = some s := fun s => behind_append [space] s
  have hquestion : ∀ s, behind [question] (question :: s) = some s := fun s =>
    behind_append [question] s
  unfold readRequest
  simp only [hmsg, takeWhile_ne hmethod, dropWhile_ne hmethod, hspace, Option.bind_eq_bind,
    Option.bind_some, takeWhile_ne htarget, dropWhile_ne htarget, hversion, behind_append,
    takeWhile_ne hpath.2, dropWhile_ne hpath.2, hquestion, takeWhile_ne hhost.2,
    dropWhile_ne hhost.2, if_true]
  rfl

/-! ## The tracker's request -/

/-- Bytes that delimit nothing in a query. -/
def Unreserved (s : List UInt8) : Prop := ∀ c ∈ s, c ≠ ampersand ∧ c ≠ space

instance (s : List UInt8) : Decidable (Unreserved s) := List.decidableBAll _ s

theorem unreserved_decimal (n : Nat) : Unreserved (Bencode.decimal n) := by
  intro c hc
  obtain ⟨hlo, -⟩ := Bencode.isdigit_toNat ((Bencode.isNumeral_decimal n).2 c hc)
  constructor
  · rintro rfl
    exact absurd hlo (by decide)
  · rintro rfl
    exact absurd hlo (by decide)

theorem unreserved_stdToString (n : Int) : Unreserved (stdToString n) := by
  intro c hc
  unfold stdToString at hc
  split_ifs at hc
  · rcases List.mem_cons.mp hc with rfl | hc
    · exact ⟨by decide, by decide⟩
    · exact unreserved_decimal _ c hc
  · exact unreserved_decimal _ c hc

theorem unreserved_hexDigit {n : Nat} (h : n < 16) :
    InfoHash.hexDigit n ≠ ampersand ∧ InfoHash.hexDigit n ≠ space := by
  interval_cases n <;> decide

theorem unreserved_percentEncode (bytes : List UInt8) :
    Unreserved (InfoHash.percentEncode bytes) := by
  intro c hc
  obtain ⟨b, -, hc⟩ := List.mem_flatMap.mp hc
  have hb := UInt8.toNat_lt b
  rcases List.mem_cons.mp hc with rfl | hc
  · exact ⟨by decide, by decide⟩
  · rcases List.mem_cons.mp hc with rfl | hc
    · exact unreserved_hexDigit (by omega)
    · rw [List.mem_singleton.mp hc]
      exact unreserved_hexDigit (Nat.mod_lt _ (by decide))

theorem unreserved_genPeerId (rand : Fin 12 → Nat) : Unreserved (genPeerId rand) := by
  intro c hc
  rcases List.mem_append.mp hc with hc | hc
  · have hfront : Unreserved [0x2D, 0x50, 0x43, 0x30, 0x30, 0x30, 0x31, 0x2D] := by decide
    exact hfront c hc
  · obtain ⟨i, -, hc⟩ := List.mem_flatMap.mp hc
    exact unreserved_stdToString _ c hc

theorem left_exact {pieces : List UInt8} {piecelen : Int}
    (hlo : -2 ^ 63 ≤ (pieces.length / 20 : Nat) * piecelen)
    (hhi : (pieces.length / 20 : Nat) * piecelen < 2 ^ 63) :
    left pieces piecelen = (pieces.length / 20 : Nat) * piecelen := by
  unfold left
  exact Int.bmod_eq_of_le (by omega) (by omega)

/-- What a tracker is to read of the request: the parameters, and in `info_hash` the digest. -/
def announceParams (infoHash peerId left : List UInt8) : List (List UInt8 × List UInt8) :=
  [(infoHashParam, infoHash), (peerIdParam, peerId), (uploadedParam, [0x30]),
    (downloadedParam, [0x30]), (leftParam, left), (portKey, [0x34, 0x34, 0x33]),
    (compactParam, [0x31])]

section AnnounceQuery

variable {infoHash peerId left : List UInt8}

theorem announceParams_eq (infoHash peerId left : List UInt8) :
    (Http.announceAccesses infoHash peerId left).map (fun a =>
      (a.key, Http.lastValue (Http.announceAccesses infoHash peerId left) a.key)) =
      announceParams infoHash peerId left := rfl

/-- The keys of the request, and its values if those that are set are so, delimit nothing. -/
theorem announceParams_plain (hhash : Unreserved infoHash) (hid : Unreserved peerId)
    (hleft : Unreserved left) : ∀ p ∈ announceParams infoHash peerId left,
      (equals ∉ p.1 ∧ Unreserved p.1) ∧ Unreserved p.2 := by
  simp only [announceParams, List.forall_mem_cons]
  refine ⟨⟨?_, hhash⟩, ⟨?_, hid⟩, ⟨?_, by decide⟩, ⟨?_, by decide⟩, ⟨?_, hleft⟩, ⟨?_, by decide⟩,
    ⟨?_, by decide⟩, by simp⟩ <;>
  exact ⟨by decide, by decide⟩

/-- **The query of the request** is read as its parameters, and has no blank. -/
theorem readQuery_announce (hhash : Unreserved infoHash) (hid : Unreserved peerId)
    (hleft : Unreserved left) :
    readQuery (Http.run (Http.announceAccesses infoHash peerId left)).toString =
        announceParams infoHash peerId left ∧
      space ∉ (Http.run (Http.announceAccesses infoHash peerId left)).toString := by
  have hplain : ∀ a ∈ Http.announceAccesses infoHash peerId left, (equals ∉ a.key ∧
      Unreserved a.key) ∧
      Unreserved (Http.lastValue (Http.announceAccesses infoHash peerId left) a.key) :=
    fun a ha => announceParams_plain hhash hid hleft _
      (announceParams_eq infoHash peerId left ▸ List.mem_map_of_mem ha)
  constructor
  · rw [← announceParams_eq]
    refine readQuery_toString fun a ha => ?_
    obtain ⟨⟨hequals, hkey⟩, hvalue⟩ := hplain a ha
    exact ⟨hequals, fun h => (hkey _ h).1 rfl, fun h => (hvalue _ h).1 rfl⟩
  · refine notMem_toString (by decide) (by decide) fun a ha => ?_
    obtain ⟨⟨-, hkey⟩, hvalue⟩ := hplain a ha
    exact ⟨fun h => (hkey _ h).2 rfl, fun h => (hvalue _ h).2 rfl⟩

end AnnounceQuery

/-- **The tracker reads the request as it is meant**, if its `info_hash` is the percent-encoded
digest: the digest, the peer id, and what is left to download. -/
theorem readRequest_announce (hash : Digest) (host pieces : List UInt8) (piecelen : Int)
    (rand : Fin 12 → Nat) (hhost : 0 ∉ host ∧ cr ∉ host)
    (hlo : -2 ^ 63 ≤ (pieces.length / 20 : Nat) * piecelen)
    (hhi : (pieces.length / 20 : Nat) * piecelen < 2 ^ 63) :
    ∃ infoHash, InfoHash.percentDecode infoHash = some hash.val ∧
      readRequest (requestBytes (InfoHash.percentEncode hash.val) (genPeerId rand) host pieces
          piecelen) =
        some ⟨getMethod, announcePath, announceParams infoHash (genPeerId rand)
          (stdToString ((pieces.length / 20 : Nat) * piecelen)), host⟩ := by
  refine ⟨_, InfoHash.percentDecode_encode hash.val, ?_⟩
  obtain ⟨hquery, hspace⟩ := readQuery_announce (unreserved_percentEncode hash.val)
    (unreserved_genPeerId rand) (unreserved_stdToString (left pieces piecelen))
  unfold requestBytes
  rw [readRequest_build (by decide) hspace hhost, hquery, left_exact hlo hhi]

/-- **The request for a torrent of two pieces is read.** -/
theorem readRequest_announce_sample :
    ∃ infoHash, InfoHash.percentDecode infoHash = some zeroDigest.val ∧
      readRequest (requestBytes (InfoHash.percentEncode zeroDigest.val) sampleId trackerUrl.host
          (List.replicate 40 0) 262144) =
        some ⟨getMethod, announcePath, announceParams infoHash sampleId
          (stdToString (((List.replicate 40 (0 : UInt8)).length / 20 : Nat) * 262144)),
          trackerUrl.host⟩ :=
  readRequest_announce zeroDigest trackerUrl.host (List.replicate 40 0) 262144 (fun _ => 7)
    ⟨by decide, by decide⟩ (by decide) (by decide)

end CometBt.Torrent
