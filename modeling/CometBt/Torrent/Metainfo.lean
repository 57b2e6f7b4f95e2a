import CometBt.Torrent.Files
import CometBt.Torrent.InfoDict

/-!
# The metainfo of a torrent (`src/torrent.cpp`)

`init_torrent_data` decodes the torrent file and sets the members of `torrent` from the dictionary,
an optional one behind a guard that looks for a key. The guards of `created by` and `creation date`
look for `comment`, and `m_info_private` is an `int`.

* A `DictM` computation uses a dictionary with `operator[]`. `Yields x d r` says that its outcome on
  `d` is `r`, whatever null nodes earlier uses have added: one rule for a use (`yields_read`), for
  an outcome (`yields_lift`), and for a sequence (`Yields.bind`).
* `initTorrentData_iff`: what decides how `init_torrent_data` ends on a metainfo file.
* **`optionals_set_iff`**: for which metainfo files the optional members come out right.
-/

namespace CometBt.Torrent

open Bencode (Bptr Alloc Sentence Stops toInt intMax)
open Lib (bind_eq_ok OccursAt)

/-! ## Dictionaries in use -/

/-- A computation that uses a dictionary. -/
abbrev DictM := StateT Dict (Except NodeHalt)

/-- `get(d[key])`. -/
def read {α : Type} (key : List UInt8) (get : Bptr → Except NodeHalt α) : DictM α := fun d => do
  let v ← get (index d key).1
  return (v, (index d key).2)

/-- `if(d[guard] != nullptr) member = get(d[key])`: the member afterwards. -/
def optional {α : Type} (guard key : List UInt8) (get : Bptr → Except NodeHalt α) (member : α) :
    DictM α := do
  match ← read guard .ok with
  | .null => return member
  | _ => read key get

/-- The dictionaries have the same nodes. -/
def Same (d d' : Dict) : Prop := ∀ key, node d' key = node d key

/-- On a dictionary with the nodes of `d` the outcome is `r`, and the nodes stay. -/
def Yields {α : Type} (x : DictM α) (d : Dict) (r : Except NodeHalt α) : Prop :=
  ∀ d', Same d d' → (x d').map Prod.fst = r ∧ ∀ v d'', x d' = .ok (v, d'') → Same d d''

section Rules

variable {α β : Type} {d : Dict} {x : DictM α} {r : Except NodeHalt α}

theorem yields_read (d : Dict) (key : List UInt8) (get : Bptr → Except NodeHalt α) :
    Yields (read key get) d (get (node d key)) := by
  intro d' hsame
  unfold read
  rw [index_fst, hsame key]
  cases get (node d key) with
  | error e => exact ⟨rfl, fun _ _ h => nomatch h⟩
  | ok v =>
    refine ⟨rfl, fun w d'' h k => ?_⟩
    obtain ⟨-, rfl⟩ := Prod.mk.inj (Except.ok.inj h)
    exact (node_index d' key k).trans (hsame k)

theorem yields_pure (d : Dict) (v : α) : Yields (pure v) d (.ok v) := by
  intro d' hsame
  refine ⟨rfl, fun w d'' h => ?_⟩
  obtain ⟨-, rfl⟩ := Prod.mk.inj (Except.ok.inj h)
  exact hsame

theorem yields_lift (d : Dict) (r : Except NodeHalt α) : Yields (liftM r : DictM α) d r := by
  cases r with
  | error e => exact fun d' _ => ⟨rfl, fun _ _ h => nomatch h⟩
  | ok v => exact yields_pure d v

/-- **A sequence.** -/
theorem Yields.bind {f : α → DictM β} {g : α → Except NodeHalt β} (hx : Yields x d r)
    (hf : ∀ v, Yields (f v) d (g v)) : Yields (x >>= f) d (r >>= g) := by
  intro d' hsame
  obtain ⟨hfst, hstay⟩ := hx d' hsame
  have hbind : (x >>= f) d' = x d' >>= fun p => f p.1 p.2 := rfl
  rw [hbind]
  cases h : x d' with
  | error e =>
    rw [h] at hfst
    rw [← hfst]
    exact ⟨rfl, fun _ _ h => nomatch h⟩
  | ok p =>
    rw [h] at hfst
    rw [← hfst]
    exact hf p.1 p.2 (hstay p.1 p.2 h)

/-- What a guarded member is set to. -/
def optionalValue (d : Dict) (guard key : List UInt8) (get : Bptr → Except NodeHalt α)
    (member : α) : Except NodeHalt α :=
  match node d guard with
  | .null => .ok member
  | _ => get (node d key)

theorem yields_optional (d : Dict) (guard key : List UInt8) (get : Bptr → Except NodeHalt α)
    (member : α) : Yields (optional guard key get member) d
      (optionalValue d guard key get member) := by
  have hguard : Yields (optional guard key get member) d ((.ok (node d guard)) >>= fun p =>
      match p with
      | .null => .ok member
      | _ => get (node d key)) := by
    refine (yields_read d guard .ok).bind fun p => ?_
    cases p with
    | null => exact yields_pure d member
    | _ => exact yields_read d key get
  exact hguard

end Rules

/-! ## The model -/

/-- `announce`. -/
def announceKey : List UInt8 := [0x61, 0x6E, 0x6E, 0x6F, 0x75, 0x6E, 0x63, 0x65]
/-- `announce-list`. -/
def announceListKey : List UInt8 := announceKey ++ [0x2D, 0x6C, 0x69, 0x73, 0x74]
/-- `comment`. -/
def commentKey : List UInt8 := [0x63, 0x6F, 0x6D, 0x6D, 0x65, 0x6E, 0x74]
/-- `created by`. -/
def createdByKey : List UInt8 := [0x63, 0x72, 0x65, 0x61, 0x74, 0x65, 0x64, 0x20, 0x62, 0x79]
/-- `creation date`. -/
def creationDateKey : List UInt8 :=
  [0x63, 0x72, 0x65, 0x61, 0x74, 0x69, 0x6F, 0x6E, 0x20, 0x64, 0x61, 0x74, 0x65]
/-- `encoding`. -/
def encodingKey : List UInt8 := [0x65, 0x6E, 0x63, 0x6F, 0x64, 0x69, 0x6E, 0x67]
/-- `name`. -/
def nameKey : List UInt8 := [0x6E, 0x61, 0x6D, 0x65]
/-- `private`. -/
def privateKey : List UInt8 := [0x70, 0x72, 0x69, 0x76, 0x61, 0x74, 0x65]
/-- `piece length`. -/
def pieceLengthKey : List UInt8 :=
  [0x70, 0x69, 0x65, 0x63, 0x65, 0x20, 0x6C, 0x65, 0x6E, 0x67, 0x74, 0x68]
/-- `pieces`. -/
def piecesKey : List UInt8 := [0x70, 0x69, 0x65, 0x63, 0x65, 0x73]

/-- The members of `torrent` that `init_torrent_data` uses, with the constructor's defaults. A
member that the constructor does not set is `none`. -/
structure Members (D : Type) where
  buff : List UInt8
  infoHash : Option D := none
  announce : List UInt8 := []
  announceList : List (List UInt8) := []
  comment : List UInt8 := []
  createdBy : List UInt8 := []
  creationDate : Int := 0
  encoding : List UInt8 := []
  info : Dict := []
  /-- An `int`. -/
  infoPrivate : Int := -1
  infoFiles : List InfoFile := []
  infoName : List UInt8 := []
  length : Option Int := none
  infoPiecelen : Option Int := none
  infoPieces : List UInt8 := []

/-- How `init_torrent_data` ends when it does not return. -/
inductive InitHalt where
  | find (h : Halt)
  | decode (h : Bencode.Halt)
  | node (h : NodeHalt)
  deriving DecidableEq, Repr

/-- The loop over `announce-list`. -/
def announceLoop : List Bptr → List (List UInt8) → Except NodeHalt (List (List UInt8))
  | [], announces => .ok announces
  | elem :: elems, announces => do
    let elemList ← getList elem
    let announce ← getFirstStr elemList
    announceLoop elems (announces ++ [announce])

/-- The announces of the node behind those there are. -/
def getAnnounces (announces : List (List UInt8)) (p : Bptr) :
    Except NodeHalt (List (List UInt8)) := do
  let elems ← getList p
  announceLoop elems announces

/-- An integer node narrowed to `int`. -/
def getPrivate (p : Bptr) : Except NodeHalt Int := do
  let n ← getInt p
  return toInt n

/-- An integer node for a member. -/
def getLength (p : Bptr) : Except NodeHalt (Option Int) := do
  let n ← getInt p
  return some n

/-- `extract_info_files(m_info)`, called when `files` is in the map. -/
def extractFiles : DictM (List InfoFile) := fun d => do
  let infoFiles ← extractInfoFiles d
  return (infoFiles, d)

variable {D : Type}

/-- `m_info_files` and `m_length`. -/
def readFiles (t : Members D) : DictM (List InfoFile × Option Int) := do
  match ← read filesKey .ok with
  | .null => do
    let length ← optional lengthKey lengthKey getLength t.length
    return (t.infoFiles, length)
  | _ => do
    let infoFiles ← extractFiles
    return (infoFiles, t.length)

/-- The part of `init_torrent_data` that uses `m_info`. -/
def readInfo (t : Members D) : DictM (Members D) := do
  let infoName ← read nameKey getStr
  let (infoFiles, length) ← readFiles t
  let infoPrivate ← optional privateKey privateKey getPrivate t.infoPrivate
  let infoPiecelen ← read pieceLengthKey getInt
  let infoPieces ← read piecesKey getStr
  return { t with
    infoName := infoName
    infoFiles := infoFiles
    length := length
    infoPrivate := infoPrivate
    infoPiecelen := some infoPiecelen
    infoPieces := infoPieces }

/-- `m_info` becomes the copy `info`, and is used. -/
def setInfo (t : Members D) (info : Dict) : Except NodeHalt (Members D) := do
  let (t, info) ← readInfo t info
  return { t with info := info }

/-- The part of `init_torrent_data` that uses `document`. -/
def readDocument (t : Members D) : DictM (Members D) := do
  let announce ← read announceKey getStr
  let announceList ← optional announceListKey announceListKey (getAnnounces t.announceList)
    t.announceList
  let comment ← optional commentKey commentKey getStr t.comment
  -- The next two guards look for `comment` as well.
  let createdBy ← optional commentKey createdByKey getStr t.createdBy
  let creationDate ← optional commentKey creationDateKey getInt t.creationDate
  let encoding ← optional encodingKey encodingKey getStr t.encoding
  let info ← read infoKey getDict
  setInfo { t with
    announce := announce
    announceList := announceList
    comment := comment
    createdBy := createdBy
    creationDate := creationDate
    encoding := encoding } info

/-- `init_torrent_data`. -/
def initTorrentData (sha1 : List UInt8 → D) (a : Alloc) (fuel : Nat) (t : Members D) :
    Except InitHalt (Members D) := do
  let hash ← (infoHash sha1 t.buff).mapError .find
  let (data, _) ← (Bencode.decode a t.buff fuel 0).mapError .decode
  let document ← (getDict data).mapError .node
  let (t, _) ← (readDocument { t with infoHash := some hash } document).mapError .node
  return t

/-! ## Metainfo files -/

/-- The node of a list of announces, each with what comes behind it in its tier. -/
def tiersNode (tiers : List (List UInt8 × List Bptr)) : Bptr :=
  .list (tiers.map fun tier => .list (.str tier.1 :: tier.2))

/-- A torrent file with the required keys, and optional ones with nodes of the right types. -/
structure Metainfo where
  alloc : Alloc
  fuel : Nat
  buff : List UInt8
  document : Dict
  stop : Nat
  announce : List UInt8
  info : Dict
  name : List UInt8
  pieceLength : Int
  pieces : List UInt8
  announceList : Option (List (List UInt8 × List Bptr))
  comment : Option (List UInt8)
  createdBy : Option (List UInt8)
  creationDate : Option Int
  encoding : Option (List UInt8)
  isPrivate : Option Int
  /-- The decoder's cursor is an `int`. -/
  fits : buff.length < 2 ^ 31
  decoded : Bencode.decode alloc buff fuel 0 = .ok (.dict document, stop)
  announce_eq : document.lookup announceKey = some (.str announce)
  info_eq : document.lookup infoKey = some (.dict info)
  name_eq : info.lookup nameKey = some (.str name)
  pieceLength_eq : info.lookup pieceLengthKey = some (.int pieceLength)
  pieces_eq : info.lookup piecesKey = some (.str pieces)
  announceList_eq : document.lookup announceListKey = announceList.map tiersNode
  comment_eq : document.lookup commentKey = comment.map .str
  createdBy_eq : document.lookup createdByKey = createdBy.map .str
  creationDate_eq : document.lookup creationDateKey = creationDate.map .int
  encoding_eq : document.lookup encodingKey = encoding.map .str
  private_eq : info.lookup privateKey = isPrivate.map .int

/-- The optional members. -/
structure Optionals where
  announceList : List (List UInt8)
  comment : List UInt8
  createdBy : List UInt8
  creationDate : Int
  encoding : List UInt8
  infoPrivate : Int
  deriving DecidableEq, Repr

/-- The optional members of a torrent. -/
def Members.optionals (t : Members D) : Optionals where
  announceList := t.announceList
  comment := t.comment
  createdBy := t.createdBy
  creationDate := t.creationDate
  encoding := t.encoding
  infoPrivate := t.infoPrivate

/-- What a file gives for the optional members: the value of a key that it has, else the default. Of
a tier in `announce-list` that is the first announce. -/
def Metainfo.optionals (m : Metainfo) : Optionals where
  announceList := (m.announceList.map fun tiers => tiers.map Prod.fst).getD []
  comment := m.comment.getD []
  createdBy := m.createdBy.getD []
  creationDate := m.creationDate.getD 0
  encoding := m.encoding.getD []
  infoPrivate := m.isPrivate.getD (-1)

/-- **The optional members come out right**, and no null node is used. -/
def OptionalsSet (sha1 : List UInt8 → D) (m : Metainfo) : Prop :=
  ∃ t, initTorrentData sha1 m.alloc m.fuel { buff := m.buff } = .ok t ∧ t.optionals = m.optionals

/-! ## When they do -/

/-- A member whose guard looks for the key of another. -/
def Follows {α β : Type} (guard : Option α) (value : Option β) (member : β) : Prop :=
  match guard with
  | none => value.getD member = member
  | some _ => value.isSome

/-- The node is a dictionary with an integer `length`, and a list `path` that starts with a
string. -/
def IsFile (elem : Bptr) : Prop :=
  ∃ d n s others, elem = .dict d ∧ node d lengthKey = .int n ∧
    node d pathKey = .list (.str s :: others)

/-- The files of an info dictionary are readable: `files` is a list of them, or there is none and
`length`, if there is one, is an integer. -/
def ReadableFiles (info : Dict) : Prop :=
  match node info filesKey with
  | .null => node info lengthKey = .null ∨ ∃ n, node info lengthKey = .int n
  | files => ∃ elems, files = .list elems ∧ ∀ elem ∈ elems, IsFile elem

/-- `created by` and `creation date` are there exactly with `comment`, but for values that are the
defaults; `private` is an `int`; and the files are readable. -/
structure Guarded (m : Metainfo) : Prop where
  createdBy : Follows m.comment m.createdBy []
  creationDate : Follows m.comment m.creationDate 0
  infoPrivate : ∀ n ∈ m.isPrivate, toInt n = n
  files : ReadableFiles m.info

/-! ## The guarded parts -/

section Values

variable {α β γ : Type} {d : Dict} {guard key : List UInt8} {get : Bptr → Except NodeHalt α}

/-- A member whose guard looks for its own key. -/
theorem optionalValue_self {value : Option β} {f : β → Bptr} {g : β → α}
    (hkey : d.lookup key = value.map f) (hget : ∀ b, get (f b) = .ok (g b))
    (hnull : ∀ b, f b ≠ .null) (member : α) :
    optionalValue d key key get member = .ok ((value.map g).getD member) := by
  unfold optionalValue node
  rw [hkey]
  cases value with
  | none => rfl
  | some b =>
    have hnode := hnull b
    have hb := hget b
    simp only [Option.map_some, Option.getD_some]
    generalize f b = p at hnode hb
    cases p with
    | null => exact absurd rfl hnode
    | _ => exact hb

/-- **A member whose guard looks for the key of another** comes out right exactly if it follows. -/
theorem optionalValue_iff_follows {c : Option γ} {value : Option α} {f : α → Bptr}
    {f' : γ → Bptr} (hguard : d.lookup guard = c.map f') (hkey : d.lookup key = value.map f)
    (hget : ∀ b, get (f b) = .ok b) (hgetNull : get .null = .error .nullDeref)
    (hnull : ∀ b, f' b ≠ .null) (member : α) :
    optionalValue d guard key get member = .ok (value.getD member) ↔ Follows c value member := by
  unfold optionalValue node Follows
  rw [hguard, hkey]
  cases c with
  | none =>
    constructor
    · exact fun h => (Except.ok.inj h).symm
    · exact fun h => congrArg Except.ok h.symm
  | some b =>
    have hnode := hnull b
    simp only [Option.map_some, Option.getD_some]
    have hread : get ((value.map f).getD .null) = .ok (value.getD member) ↔ value.isSome := by
      cases value with
      | none => simp [hgetNull]
      | some v => simp [hget]
    generalize f' b = p at hnode
    cases p with
    | null => exact absurd rfl hnode
    | _ => exact hread

end Values

theorem follows_self {α : Type} (value : Option α) (member : α) : Follows value value member := by
  cases value <;> simp [Follows]

theorem announceLoop_eq (tiers : List (List UInt8 × List Bptr)) (announces : List (List UInt8)) :
    announceLoop (tiers.map fun tier => .list (.str tier.1 :: tier.2)) announces =
      .ok (announces ++ tiers.map Prod.fst) := by
  induction tiers generalizing announces with
  | nil => exact congrArg Except.ok (List.append_nil _).symm
  | cons tier tiers ih =>
    rw [List.map_cons, List.map_cons, List.append_cons]
    exact ih (announces ++ [tier.1])

/-- A pass of the loop of `extract_info_files` returns exactly on a file. -/
theorem extractLoop_cons {elem : Bptr} {elems : List Bptr} {infoFiles files : List InfoFile} :
    extractLoop (elem :: elems) infoFiles = .ok files ↔ ∃ d n s others, elem = .dict d ∧
      node d lengthKey = .int n ∧ node d pathKey = .list (.str s :: others) ∧
        extractLoop elems (infoFiles ++ [⟨toInt n, s⟩]) = .ok files := by
  have hloop : extractLoop (elem :: elems) infoFiles = (do
      let file ← getDict elem
      let length ← getInt (index file lengthKey).1
      let path ← infoFilePath (index file lengthKey).2
      extractLoop elems (infoFiles ++ [⟨toInt length, path⟩])) := rfl
  rw [hloop]
  simp only [bind_eq_ok, getDict_eq_ok, getInt_eq_ok, infoFilePath_eq_ok, index_fst, node_index]
  constructor
  · rintro ⟨d, hd, n, hn, s, ⟨others, hs⟩, hrest⟩
    exact ⟨d, n, s, others, hd, hn, hs, hrest⟩
  · rintro ⟨d, n, s, others, hd, hn, hs, hrest⟩
    exact ⟨d, hd, n, hn, s, ⟨others, hs⟩, hrest⟩

theorem extractLoop_returns_iff (elems : List Bptr) (infoFiles : List InfoFile) :
    (∃ files, extractLoop elems infoFiles = .ok files) ↔ ∀ elem ∈ elems, IsFile elem := by
  induction elems generalizing infoFiles with
  | nil => exact ⟨fun _ _ h => absurd h List.not_mem_nil, fun _ => ⟨infoFiles, rfl⟩⟩
  | cons elem elems ih =>
    rw [List.forall_mem_cons]
    simp only [extractLoop_cons]
    constructor
    · rintro ⟨files, d, n, s, others, hd, hn, hs, hrest⟩
      exact ⟨⟨d, n, s, others, hd, hn, hs⟩, (ih _).mp ⟨files, hrest⟩⟩
    · rintro ⟨⟨d, n, s, others, hd, hn, hs⟩, hrest⟩
      obtain ⟨files, hfiles⟩ := (ih _).mpr hrest
      exact ⟨files, d, n, s, others, hd, hn, hs, hfiles⟩

/-- What `readFiles` comes to. -/
def filesValue (t : Members D) (info : Dict) : Except NodeHalt (List InfoFile × Option Int) :=
  match node info filesKey with
  | .null => do
    let length ← optionalValue info lengthKey lengthKey getLength t.length
    return (t.infoFiles, length)
  | _ => do
    let infoFiles ← extractInfoFiles info
    return (infoFiles, t.length)

theorem yields_extractFiles (d : Dict) : Yields extractFiles d (extractInfoFiles d) := by
  intro d' hsame
  have hfiles : extractInfoFiles d' = extractInfoFiles d := by
    unfold extractInfoFiles
    rw [index_fst, index_fst, hsame]
  unfold extractFiles
  rw [hfiles]
  cases extractInfoFiles d with
  | error e => exact ⟨rfl, fun _ _ h => nomatch h⟩
  | ok infoFiles =>
    refine ⟨rfl, fun v d'' h => ?_⟩
    obtain ⟨-, rfl⟩ := Prod.mk.inj (Except.ok.inj h)
    exact hsame

theorem yields_readFiles (t : Members D) (info : Dict) :
    Yields (readFiles t) info (filesValue t info) := by
  have hfiles : Yields (readFiles t) info ((.ok (node info filesKey)) >>= fun p =>
      match p with
      | .null => do
        let length ← optionalValue info lengthKey lengthKey getLength t.length
        return (t.infoFiles, length)
      | _ => do
        let infoFiles ← extractInfoFiles info
        return (infoFiles, t.length)) := by
    refine (yields_read info filesKey .ok).bind fun p => ?_
    cases p with
    | null => exact (yields_optional info _ _ _ _).bind fun length => yields_pure info _
    | _ => exact (yields_extractFiles info).bind fun infoFiles => yields_pure info _
  exact hfiles

theorem filesValue_returns_iff (t : Members D) (info : Dict) :
    (∃ v, filesValue t info = .ok v) ↔ ReadableFiles info := by
  unfold filesValue ReadableFiles extractInfoFiles
  rw [index_fst]
  cases hfiles : node info filesKey with
  | null =>
    unfold optionalValue getLength
    cases node info lengthKey <;> simp [getInt, bind, Except.bind, pure, Except.pure]
  | list elems =>
    constructor
    · rintro ⟨v, h⟩
      obtain ⟨infoFiles, hloop, -⟩ := bind_eq_ok.mp h
      exact ⟨elems, rfl, (extractLoop_returns_iff elems []).mp ⟨infoFiles, hloop⟩⟩
    · rintro ⟨elems', h, hall⟩
      obtain rfl := Bptr.list.inj h
      obtain ⟨infoFiles, hloop⟩ := (extractLoop_returns_iff elems []).mpr hall
      exact ⟨(infoFiles, t.length), bind_eq_ok.mpr ⟨infoFiles, hloop, rfl⟩⟩
  | _ => simp [getList, bind, Except.bind]

/-! ## The whole -/

/-- The info dictionary of a metainfo file is found. -/
theorem infoHash_returns (sha1 : List UInt8 → D) (m : Metainfo) :
    ∃ hash, infoHash sha1 m.buff = .ok hash := by
  obtain ⟨bs, ys, hat, hs, -⟩ : ∃ bs ys, Bencode.At m.buff 0 (bs ++ ys) ∧
      Sentence (.read m.alloc) bs (.dict m.document) ∧ m.stop = 0 + bs.length :=
    Stops.sentence m.fits (Nat.zero_le _) (by simp) ⟨⟨m.fuel, m.decoded⟩, by simp⟩
  have hbuff : m.buff = bs ++ ys := hat.2
  obtain ⟨front, kb, vb, back, rfl, hk, hv⟩ := hs.lookup m.info_eq
  obtain ⟨front', rfl⟩ := infoKey_sentence hk
  obtain ⟨front'', kb', vb', back', rfl, hk', -⟩ := hv.lookup m.pieces_eq
  have hpieces : 8 ≤ kb'.length := hk'.str_length
  have hsplit : m.buff = (Bencode.dictToken :: (front ++ front')) ++ (infoPattern ++
      (front'' ++ (kb' ++ (vb' ++ (back' ++ [Bencode.endToken] ++ (back ++ [Bencode.endToken] ++
        ys)))))) := by
    rw [hbuff]
    simp [infoPattern, infoKey, Bencode.dictToken, Bencode.sdelToken]
  have hocc : OccursAt infoPattern m.buff (Bencode.dictToken :: (front ++ front')).length := by
    unfold OccursAt
    rw [hsplit, List.drop_left]
    exact List.prefix_append _ _
  have hroom : (Bencode.dictToken :: (front ++ front')).length + 14 ≤ m.buff.length := by
    have h7 : infoPattern.length = 7 := rfl
    rw [hsplit]
    simp only [List.length_append]
    omega
  obtain ⟨start, size, hfind⟩ := findInfoDict_returns (Nat.le_of_lt_succ m.fits) hocc hroom
  unfold infoHash
  rw [hfind]
  exact ⟨_, rfl⟩

theorem map_bind {ε α β γ : Type} (x : Except ε α) (f : α → Except ε β) (g : β → γ) :
    (x >>= f).map g = x >>= fun a => (f a).map g := by
  cases x <;> rfl

/-- The part of `m_info`, with the required keys in it. -/
theorem setInfo_eq (m : Metainfo) (t : Members D) :
    (setInfo t m.info).map Members.optionals = (do
      let _ ← filesValue t m.info
      let infoPrivate ← optionalValue m.info privateKey privateKey getPrivate t.infoPrivate
      return { t.optionals with infoPrivate := infoPrivate }) := by
  have hread : Yields (readInfo t) m.info _ :=
    (yields_read m.info nameKey getStr).bind fun infoName =>
      (yields_readFiles t m.info).bind fun files =>
        (yields_optional m.info privateKey privateKey getPrivate t.infoPrivate).bind
          fun infoPrivate => (yields_read m.info pieceLengthKey getInt).bind fun infoPiecelen =>
            (yields_read m.info piecesKey getStr).bind fun infoPieces => yields_pure m.info _
  have hout := (hread m.info fun _ => rfl).1
  rw [node_eq_of_lookup m.name_eq, node_eq_of_lookup m.pieceLength_eq,
    node_eq_of_lookup m.pieces_eq] at hout
  have hset : (setInfo t m.info).map Members.optionals =
      ((readInfo t m.info).map Prod.fst).map Members.optionals := by
    unfold setInfo
    cases readInfo t m.info <;> rfl
  rw [hset, hout]
  simp only [getStr, getInt, Lib.ok_bind, map_bind]
  rfl

/-- The part of `document`, with the required keys in it. -/
theorem readDocument_eq (m : Metainfo) (t : Members D) :
    ((readDocument t m.document).map fun p => p.1.optionals) = (do
      let announceList ← optionalValue m.document announceListKey announceListKey
        (getAnnounces t.announceList) t.announceList
      let comment ← optionalValue m.document commentKey commentKey getStr t.comment
      let createdBy ← optionalValue m.document commentKey createdByKey getStr t.createdBy
      let creationDate ← optionalValue m.document commentKey creationDateKey getInt t.creationDate
      let encoding ← optionalValue m.document encodingKey encodingKey getStr t.encoding
      let _ ← filesValue t m.info
      let infoPrivate ← optionalValue m.info privateKey privateKey getPrivate t.infoPrivate
      return ⟨announceList, comment, createdBy, creationDate, encoding, infoPrivate⟩) := by
  have hread : Yields (readDocument t) m.document _ :=
    (yields_read m.document announceKey getStr).bind fun announce =>
      (yields_optional m.document _ _ (getAnnounces t.announceList) _).bind fun announceList =>
        (yields_optional m.document _ _ getStr _).bind fun comment =>
          (yields_optional m.document _ _ getStr _).bind fun createdBy =>
            (yields_optional m.document _ _ getInt _).bind fun creationDate =>
              (yields_optional m.document _ _ getStr _).bind fun encoding =>
                (yields_read m.document infoKey getDict).bind fun info =>
                  yields_lift m.document (setInfo _ info)
  have hout := (hread m.document fun _ => rfl).1
  rw [node_eq_of_lookup m.announce_eq, node_eq_of_lookup m.info_eq] at hout
  have hmap : ((readDocument t m.document).map fun p => p.1.optionals) =
      ((readDocument t m.document).map Prod.fst).map Members.optionals := by
    cases readDocument t m.document <;> rfl
  rw [hmap, hout]
  simp only [getStr, getDict, Lib.ok_bind, map_bind, setInfo_eq]
  rfl

/-- **`init_torrent_data` on a metainfo file**: what decides are the guards that look for another
key, the files, and the `int`. -/
theorem initTorrentData_iff (sha1 : List UInt8 → D) (m : Metainfo) (o : Optionals) :
    (∃ t, initTorrentData sha1 m.alloc m.fuel { buff := m.buff } = .ok t ∧ t.optionals = o) ↔
      ∃ createdBy creationDate,
        optionalValue m.document commentKey createdByKey getStr [] = .ok createdBy ∧
        optionalValue m.document commentKey creationDateKey getInt 0 = .ok creationDate ∧
        ReadableFiles m.info ∧
        o = { m.optionals with
          createdBy := createdBy
          creationDate := creationDate
          infoPrivate := (m.isPrivate.map toInt).getD (-1) } := by
  obtain ⟨hash, hhash⟩ := infoHash_returns sha1 m
  let t : Members D := { buff := m.buff, infoHash := some hash }
  have hlist : optionalValue m.document announceListKey announceListKey
      (getAnnounces t.announceList) t.announceList = .ok m.optionals.announceList :=
    optionalValue_self m.announceList_eq (fun tiers => announceLoop_eq tiers [])
      (fun tiers => by simp [tiersNode]) []
  have hcomment : optionalValue m.document commentKey commentKey getStr t.comment =
      .ok m.optionals.comment :=
    (optionalValue_iff_follows m.comment_eq m.comment_eq (fun _ => rfl) rfl (fun s => by simp)
      []).mpr (follows_self _ _)
  have hencoding : optionalValue m.document encodingKey encodingKey getStr t.encoding =
      .ok m.optionals.encoding :=
    (optionalValue_iff_follows m.encoding_eq m.encoding_eq (fun _ => rfl) rfl (fun s => by simp)
      []).mpr (follows_self _ _)
  have htoInt : ∀ n, getPrivate (.int n) = .ok (toInt n) := fun _ => rfl
  have hprivate : optionalValue m.info privateKey privateKey getPrivate t.infoPrivate =
      .ok ((m.isPrivate.map toInt).getD (-1)) :=
    optionalValue_self m.private_eq htoInt (fun n => by simp) (-1)
  have hread := readDocument_eq m t
  rw [hlist, hcomment, hencoding, hprivate] at hread
  have hinit : (∃ t', initTorrentData sha1 m.alloc m.fuel { buff := m.buff } = .ok t' ∧
      t'.optionals = o) ↔ ((readDocument t m.document).map fun p => p.1.optionals) = .ok o := by
    unfold initTorrentData
    rw [hhash, m.decoded]
    change (∃ t', ((readDocument t m.document).mapError InitHalt.node >>= fun p => .ok p.1) =
      .ok t' ∧ t'.optionals = o) ↔ _
    cases readDocument t m.document with
    | error e => simp [Except.mapError, Except.map, bind, Except.bind]
    | ok p => simp [Except.mapError, Except.map, bind, Except.bind]
  rw [hinit, hread, ← filesValue_returns_iff t]
  simp only [Lib.ok_bind, bind_eq_ok]
  constructor
  · rintro ⟨createdBy, hcreated, creationDate, hdate, v, hv, hout⟩
    exact ⟨createdBy, creationDate, hcreated, hdate, ⟨v, hv⟩, (Except.ok.inj hout).symm⟩
  · rintro ⟨createdBy, creationDate, hcreated, hdate, ⟨v, hv⟩, rfl⟩
    exact ⟨createdBy, hcreated, creationDate, hdate, v, hv, rfl⟩

/-- **The optional members of a metainfo file come out right exactly if** `created by` and
`creation date` are there with `comment`, `private` is an `int`, and the files are readable. -/
theorem optionals_set_iff (sha1 : List UInt8 → D) (m : Metainfo) :
    OptionalsSet sha1 m ↔ Guarded m := by
  have hstr : ∀ s, getStr (.str s) = .ok s := fun _ => rfl
  have hint : ∀ n, getInt (.int n) = .ok n := fun _ => rfl
  have hcreated := optionalValue_iff_follows m.comment_eq m.createdBy_eq hstr rfl
    (fun s => by simp) []
  have hdate := optionalValue_iff_follows m.comment_eq m.creationDate_eq hint rfl
    (fun s => by simp) 0
  have hprivate : (m.isPrivate.map toInt).getD (-1) = m.isPrivate.getD (-1) ↔
      ∀ n ∈ m.isPrivate, toInt n = n := by
    cases m.isPrivate <;> simp
  unfold OptionalsSet
  rw [initTorrentData_iff]
  constructor
  · rintro ⟨createdBy, creationDate, hby, hon, hfiles, hout⟩
    rw [Optionals.mk.injEq] at hout
    obtain ⟨-, -, rfl, rfl, -, hpriv⟩ := hout
    exact ⟨hcreated.mp hby, hdate.mp hon, hprivate.mp hpriv.symm, hfiles⟩
  · rintro ⟨hby, hon, hpriv, hfiles⟩
    refine ⟨_, _, hcreated.mpr hby, hdate.mpr hon, hfiles, ?_⟩
    rw [hprivate.mpr hpriv]
    rfl

/-- `d8:announce1:t7:comment1:c4:infod4:name1:n12:piece lengthi1e6:pieces0:ee`. -/
def commented : Metainfo where
  alloc := .least
  fuel := 40
  buff := [0x64, 0x38, 0x3A] ++ announceKey ++ [0x31, 0x3A, 0x74, 0x37, 0x3A] ++ commentKey ++
    [0x31, 0x3A, 0x63, 0x34, 0x3A] ++ infoKey ++ [0x64, 0x34, 0x3A] ++ nameKey ++
    [0x31, 0x3A, 0x6E, 0x31, 0x32, 0x3A] ++ pieceLengthKey ++ [0x69, 0x31, 0x65, 0x36, 0x3A] ++
    piecesKey ++ [0x30, 0x3A, 0x65, 0x65]
  document := [(announceKey, .str [0x74]), (commentKey, .str [0x63]), (infoKey, .dict
    [(nameKey, .str [0x6E]), (pieceLengthKey, .int 1), (piecesKey, .str [])])]
  stop := 72
  announce := [0x74]
  info := [(nameKey, .str [0x6E]), (pieceLengthKey, .int 1), (piecesKey, .str [])]
  name := [0x6E]
  pieceLength := 1
  pieces := []
  announceList := none
  comment := some [0x63]
  createdBy := none
  creationDate := none
  encoding := none
  isPrivate := none
  fits := by decide
  decoded := by rfl
  announce_eq := rfl
  info_eq := rfl
  name_eq := rfl
  pieceLength_eq := rfl
  pieces_eq := rfl
  announceList_eq := rfl
  comment_eq := rfl
  createdBy_eq := rfl
  creationDate_eq := rfl
  encoding_eq := rfl
  private_eq := rfl

/-- **A comment alone makes `init_torrent_data` use a null node**: that of `created by`. -/
theorem commented_null : initTorrentData id commented.alloc commented.fuel
      { buff := commented.buff } = .error (.node .nullDeref) ∧
    ¬ OptionalsSet id commented := by
  have hinit : initTorrentData id commented.alloc commented.fuel { buff := commented.buff } =
      .error (.node .nullDeref) := by
    obtain ⟨hash, hhash⟩ := infoHash_returns id commented
    unfold initTorrentData
    rw [hhash, commented.decoded]
    rfl
  refine ⟨hinit, ?_⟩
  rintro ⟨t, ht, -⟩
  exact absurd (hinit.symm.trans ht) (by simp)

end CometBt.Torrent
