import CometBt.Bencode.Outcome
import CometBt.Http.Complete
import CometBt.Http.Query
import CometBt.Receive.Connection
import CometBt.Torrent.InfoHash
import CometBt.Torrent.Metainfo
import CometBt.Torrent.Secure
import CometBt.Torrent.Url

/-!
# The exchange with the tracker (`src/torrent.cpp`)

`setup_peerinfo` asks the tracker for peers and makes a `peer_info_s` of each. `Exchange` is what
the other side does: the addresses, what the socket takes of the request, and the response as the
records bring it.

The array in which `hex_str` prints the info hash is one cell short, so once the tracker is reached
the model stops at the request (`setupPeerinfo_outside`). `readAnswer` is the part of
`setup_peerinfo` behind the request, and the statements about answers are about this part.

* `readAnswer_congr`: how the response is cut into records does not matter.
* `readPeers_iff`: from which lists of nodes the peers are made.
* **`readAnswer_iff`**: for which answers the peers are recorded, and which.
* **`readAnswer_encode`**: the peers that a tracker writes are those recorded.
* **`compact_throws`**: the request asks for an answer in the compact form, and that is never read.
-/

namespace CometBt.Torrent

open Lib
open Bencode (Bptr Alloc Stops)
open Http (stdToString Response)

/-! ## The model -/

/-- `peer_info_s`. -/
structure PeerAddress extends PeerInfo where
  remoteIp : List UInt8
  remotePort : List UInt8

/-- How `setup_peerinfo` ends when it does not return. -/
inductive TrackerHalt where
  /-- `exit`. -/
  | exit
  /-- A member that has not been set is read. -/
  | unset
  | url (h : StrHalt)
  /-- An access to the array of `hex_str`, or to `buff`. -/
  | memory (h : Fault)
  | http (h : Http.Halt)
  | decode (h : Bencode.Halt)
  | node (h : NodeHalt)
  deriving DecidableEq, Repr

/-- What the tracker does in one exchange: the connects, the writes and the reads. -/
structure Exchange where
  attempts : List Attempt
  writes : List (Answer Nat Unit)
  reads : List (Answer (List UInt8) Unit)

/-- What has been done when `setup_peerinfo` returns: the host and the port given to `connect_to`,
the bytes sent, and `m_peers_info`. -/
structure Announced where
  host : List UInt8
  port : List UInt8
  sent : List UInt8
  peersInfo : List PeerAddress

/-- `udp`. -/
def udp : List UInt8 := [0x75, 0x64, 0x70]
/-- `https`. -/
def https : List UInt8 := [0x68, 0x74, 0x74, 0x70, 0x73]
/-- `443`. -/
def httpsPort : List UInt8 := [0x34, 0x34, 0x33]
/-- `/announce`. -/
def announcePath : List UInt8 := [0x2F, 0x61, 0x6E, 0x6E, 0x6F, 0x75, 0x6E, 0x63, 0x65]
/-- `peers`. -/
def peersKey : List UInt8 := [0x70, 0x65, 0x65, 0x72, 0x73]
/-- `peer id`. -/
def peerIdKey : List UInt8 := [0x70, 0x65, 0x65, 0x72, 0x20, 0x69, 0x64]
/-- `ip`. -/
def ipKey : List UInt8 := [0x69, 0x70]
/-- `port`. -/
def portKey : List UInt8 := [0x70, 0x6F, 0x72, 0x74]

/-- `BUFF_SIZE`. -/
def buffSize : Nat := 1024 * 32

/-- `gen_peer_id`, with what `rand` returns. -/
def genPeerId (rand : Fin 12 → Nat) : List UInt8 :=
  [0x2D, 0x50, 0x43, 0x30, 0x30, 0x30, 0x31, 0x2D] ++
    (List.finRange 12).flatMap fun i => stdToString (rand i % 10 : Nat)

/-- `left`: a product of `std::size_t`, as a `long long`. -/
def left (pieces : List UInt8) (piecelen : Int) : Int :=
  Int.bmod ((pieces.length / 20 : Nat) * piecelen) (2 ^ 64)

/-- The digest as `hex_str` has it. -/
def hexDigest (d : Digest) : InfoHash.Digest := ⟨d.val, d.property⟩

/-- The request of `setup_peerinfo`, in which the info hash is the string `hash`. -/
def requestBytes (hash id host pieces : List UInt8) (piecelen : Int) : List UInt8 :=
  Http.buildRequest host announcePath
    (Http.run (Http.announceAccesses hash id (stdToString (left pieces piecelen))))

/-- The request of `setup_peerinfo`. -/
def announceRequest (t : Members Digest) (id host : List UInt8) :
    Except TrackerHalt (List UInt8) := do
  match t.infoPiecelen with
  | none => throw .unset
  | some piecelen =>
    let hash ← (InfoHash.hexStr (t.infoHash.map hexDigest)).mapError .memory
    return requestBytes hash id host t.infoPieces piecelen

/-- A pass of the loop over the peers; the info hash is copied from the torrent's, which is not to
be null. -/
def readPeer (infoHash : Option Digest) (id : List UInt8) (peer : Bptr) :
    Except NodeHalt PeerAddress := do
  let peerDoc ← getDict peer
  let (idNode, peerDoc) := index peerDoc peerIdKey
  let remoteId ← getStr idNode
  let (ipNode, peerDoc) := index peerDoc ipKey
  let ip ← getStr ipNode
  let (portNode, _) := index peerDoc portKey
  let port ← getInt portNode
  match infoHash with
  | none => throw .nullDeref
  | some hash => return {
      remoteId := remoteId
      id := id
      infoHash := some hash
      remoteIp := ip
      remotePort := stdToString port }

/-- The loop over the peers, with `m_peers_info` so far. -/
def readPeers (infoHash : Option Digest) (id : List UInt8) :
    List Bptr → List PeerAddress → Except NodeHalt (List PeerAddress)
  | [], peersInfo => .ok peersInfo
  | peer :: peers, peersInfo => do
    let peerInfo ← readPeer infoHash id peer
    readPeers infoHash id peers (peersInfo ++ [peerInfo])

/-- What `setup_peerinfo` makes of the decoded response. -/
def readResponse (infoHash : Option Digest) (id : List UInt8) (response : Bptr) :
    Except NodeHalt (List PeerAddress) := do
  let document ← getDict response
  let peers ← getList (index document peersKey).1
  readPeers infoHash id peers []

/-- What `setup_peerinfo` makes of the bytes received. -/
def readReceived (a : Alloc) (fuel : Nat) (infoHash : Option Digest) (id msg : List UInt8) :
    Except TrackerHalt (List PeerAddress) := do
  let body ← (Http.responseBody msg).mapError .http
  let (response, _) ← (Bencode.decode a body fuel 0).mapError .decode
  (readResponse infoHash id response).mapError .node

/-- `setup_peerinfo` behind the request, of a torrent without peers. -/
def readAnswer (a : Alloc) (fuel : Nat) (infoHash : Option Digest) (id : List UInt8)
    (reads : List (Answer (List UInt8) Unit)) : Except TrackerHalt (List PeerAddress) := do
  let (buff, n) ← (recv buffSize reads).mapError .memory
  readReceived a fuel infoHash id (buff.take n)

/-- `setup_peerinfo` of a torrent without peers, whose own peer id is `id`. -/
def setupPeerinfo (a : Alloc) (fuel : Nat) (t : Members Digest) (id : List UInt8)
    (x : Exchange) : Except TrackerHalt Announced := do
  let host ← (getHost t.announce).mapError .url
  let protocol ← (getProtocol t.announce).mapError .url
  let port ← (getPort t.announce).mapError .url
  if protocol = udp then throw .exit
  let port := if protocol = https ∧ port = [] then httpsPort else port
  match connectTo x.attempts with
  | none => throw .exit
  | some false => return ⟨host, port, [], []⟩
  | some true => do
    let req ← announceRequest t id host
    let peersInfo ← readAnswer a fuel t.infoHash id x.reads
    return ⟨host, port, send req x.writes, peersInfo⟩

/-! ## Peers -/

/-- A peer as a tracker names it. -/
structure PeerEntry where
  id : List UInt8
  ip : List UInt8
  port : Int
  deriving DecidableEq, Repr

namespace PeerEntry

/-- The node is a dictionary of this peer. -/
def Describes (e : PeerEntry) (peer : Bptr) : Prop :=
  ∃ d : Dict, peer = .dict d ∧ d.lookup peerIdKey = some (.str e.id) ∧
    d.lookup ipKey = some (.str e.ip) ∧ d.lookup portKey = some (.int e.port)

/-- What is recorded of the peer, with the info hash and the peer id of this side. -/
def info (hash : Digest) (id : List UInt8) (e : PeerEntry) : PeerAddress where
  remoteId := e.id
  id := id
  infoHash := some hash
  remoteIp := e.ip
  remotePort := stdToString e.port

end PeerEntry

variable {hash : Digest} {id : List UInt8}

theorem lookup_of_node {d : Dict} {key : List UInt8} {v : Bptr} (h : node d key = v)
    (hv : v ≠ .null) : d.lookup key = some v := by
  unfold node at h
  cases hlook : d.lookup key with
  | none =>
    rw [hlook] at h
    exact absurd h.symm hv
  | some w =>
    rw [hlook] at h
    exact congrArg some h

/-- **A peer is made of a dictionary** with its id, its address and its port. -/
theorem readPeer_iff {peer : Bptr} {p : PeerAddress} :
    readPeer (some hash) id peer = .ok p ↔
      ∃ e : PeerEntry, e.Describes peer ∧ p = e.info hash id := by
  unfold readPeer
  simp only [bind_eq_ok, index_fst, node_index, getDict_eq_ok, getStr_eq_ok, getInt_eq_ok]
  constructor
  · rintro ⟨d, rfl, remoteId, hid, ip, hip, port, hport, h⟩
    obtain rfl := Except.ok.inj h
    exact ⟨⟨remoteId, ip, port⟩, ⟨d, rfl, lookup_of_node hid (by simp),
      lookup_of_node hip (by simp), lookup_of_node hport (by simp)⟩, rfl⟩
  · rintro ⟨e, ⟨d, rfl, hid, hip, hport⟩, rfl⟩
    exact ⟨d, rfl, e.id, node_eq_of_lookup hid, e.ip, node_eq_of_lookup hip, e.port,
      node_eq_of_lookup hport, rfl⟩

/-- **The peers are made of a list** of such dictionaries, in order. -/
theorem readPeers_iff {peers : List Bptr} {before after : List PeerAddress} :
    readPeers (some hash) id peers before = .ok after ↔
      ∃ entries, List.Forall₂ PeerEntry.Describes entries peers ∧
        after = before ++ entries.map (PeerEntry.info hash id) := by
  induction peers generalizing before with
  | nil =>
    unfold readPeers
    constructor
    · intro h
      exact ⟨[], .nil, by rw [Except.ok.inj h]; simp⟩
    · rintro ⟨entries, hall, rfl⟩
      obtain rfl := List.forall₂_nil_right_iff.mp hall
      simp
  | cons peer peers ih =>
    unfold readPeers
    rw [bind_eq_ok]
    constructor
    · rintro ⟨p, hp, h⟩
      obtain ⟨e, he, rfl⟩ := readPeer_iff.mp hp
      obtain ⟨entries, hall, rfl⟩ := ih.mp h
      exact ⟨e :: entries, .cons he hall, by simp⟩
    · rintro ⟨entries, hall, rfl⟩
      obtain ⟨e, rest, he, hrest, rfl⟩ := List.forall₂_cons_right_iff.mp hall
      exact ⟨_, readPeer_iff.mpr ⟨e, he, rfl⟩, ih.mpr ⟨rest, hrest, by simp⟩⟩

/-- **The peers are read from a dictionary** whose `peers` is such a list. -/
theorem readResponse_iff {response : Bptr} {peersInfo : List PeerAddress} :
    readResponse (some hash) id response = .ok peersInfo ↔
      ∃ (document : Dict) (peers : List Bptr) (entries : List PeerEntry),
        response = .dict document ∧ document.lookup peersKey = some (.list peers) ∧
        List.Forall₂ PeerEntry.Describes entries peers ∧
        peersInfo = entries.map (PeerEntry.info hash id) := by
  unfold readResponse
  simp only [bind_eq_ok, index_fst, getDict_eq_ok, getList_eq_ok]
  constructor
  · rintro ⟨document, rfl, peers, hpeers, h⟩
    obtain ⟨entries, hall, rfl⟩ := readPeers_iff.mp h
    exact ⟨document, peers, entries, rfl, lookup_of_node hpeers (by simp), hall, rfl⟩
  · rintro ⟨document, peers, entries, rfl, hpeers, hall, rfl⟩
    exact ⟨document, rfl, peers, node_eq_of_lookup hpeers, readPeers_iff.mpr ⟨entries, hall, rfl⟩⟩

/-! ## The request -/

/-- A torrent that has been set up from its file: its announce URL is `u`, and its info hash. -/
structure Announces (t : Members Digest) (u : Url) (hash : Digest) (piecelen : Int) : Prop where
  announce : t.announce = u.bytes
  fits : u.bytes.length ≤ Bencode.intMax
  proto : u.proto ≠ udp
  infoHash : t.infoHash = some hash
  piecelen : t.infoPiecelen = some piecelen

variable {a : Alloc} {fuel : Nat} {t : Members Digest} {u : Url} {piecelen : Int} {x : Exchange}

/-- **Once the tracker is reached** a byte is written behind the array of `hex_str`, before anything
is sent. -/
theorem setupPeerinfo_outside (ht : Announces t u hash piecelen)
    (hx : connectTo x.attempts = some true) :
    setupPeerinfo a fuel t id x = .error (.memory (.outside 41)) := by
  obtain ⟨hproto, hhost, hport⟩ := url_split u ht.fits
  have hhex : InfoHash.hexStr (some (hexDigest hash)) = .error (.outside 41) :=
    InfoHash.hexStrIn_outside _ (by decide)
  unfold setupPeerinfo announceRequest
  rw [ht.announce, hhost, hproto, hport, hx, ht.infoHash, ht.piecelen, Option.map_some, hhex]
  simp only [Except.mapError, ok_bind, if_neg ht.proto]
  rfl

/-! ## The answer -/

/-- What comes over the socket is the complete response `r`. -/
structure Answered (reads : List (Answer (List UInt8) Unit)) (r : Response) : Prop where
  received : (supply reads).1 = r.bytes
  complete : r.Complete

/-- The response leaves two bytes of `buff`. -/
def Fits (r : Response) : Prop := r.bytes.length + 2 ≤ buffSize

instance (r : Response) : Decidable (Fits r) := inferInstanceAs (Decidable (_ ≤ _))

variable {reads reads' : List (Answer (List UInt8) Unit)} {r : Response}
  {peersInfo : List PeerAddress}

/-- **A response that fits** comes down to its body. -/
theorem readAnswer_fits (h : Answered reads r) (hfits : Fits r) :
    readAnswer a fuel (some hash) id reads = (do
      let (response, _) ← (Bencode.decode a r.body fuel 0).mapError .decode
      (readResponse (some hash) id response).mapError .node) := by
  obtain ⟨buff, n, hrecv, htake⟩ := (recv_all_iff buffSize reads).mpr (h.received ▸ hfits)
  rw [h.received] at htake
  unfold readAnswer readReceived
  rw [hrecv]
  simp only [Except.mapError, ok_bind, htake, h.complete.responseBody]

/-- **A response that does not fit** has `recv` write behind the end of `buff`. -/
theorem readAnswer_outside (a : Alloc) (fuel : Nat) (infoHash : Option Digest) (id : List UInt8)
    (h : Answered reads r) (hfits : ¬ Fits r) :
    ∃ i, readAnswer a fuel infoHash id reads = .error (.memory (.outside i)) := by
  have hlen : (share buffSize reads).length = min buffSize r.bytes.length := by
    rw [← h.received]
    exact List.length_take
  have hfull : buffSize ≤ (share buffSize reads).length + 1 := by
    rw [hlen]
    unfold Fits at hfits
    omega
  refine ⟨(share buffSize reads).length + 1, ?_⟩
  unfold readAnswer
  rw [(recv_spec buffSize reads).2 hfull]
  rfl

/-- **The peers are recorded exactly if** the response fits in `buff`, and its body decodes to a
dictionary whose `peers` is a list of dictionaries with a peer id, an address and a port. Each is
recorded once, in order. -/
theorem readAnswer_iff (h : Answered reads r) :
    (∃ fuel, readAnswer a fuel (some hash) id reads = .ok peersInfo) ↔
      Fits r ∧ ∃ (document : Dict) (stop : Nat) (peers : List Bptr) (entries : List PeerEntry),
        Stops a r.body 0 (.ok (.dict document, stop)) ∧
        document.lookup peersKey = some (.list peers) ∧
        List.Forall₂ PeerEntry.Describes entries peers ∧
        peersInfo = entries.map (PeerEntry.info hash id) := by
  by_cases hfits : Fits r
  · simp only [readAnswer_fits h hfits, bind_eq_ok]
    constructor
    · rintro ⟨fuel, ⟨response, stop⟩, hdecode, hread⟩
      have hstop : Bencode.decode a r.body fuel 0 = .ok (response, stop) :=
        mapError_eq_ok.mp hdecode
      obtain ⟨document, peers, entries, rfl, hpeers, hall, rfl⟩ :=
        readResponse_iff.mp (mapError_eq_ok.mp hread)
      exact ⟨hfits, document, stop, peers, entries, ⟨⟨fuel, hstop⟩, by simp⟩, hpeers, hall, rfl⟩
    · rintro ⟨-, document, stop, peers, entries, ⟨⟨fuel, hstop⟩, -⟩, hpeers, hall, rfl⟩
      exact ⟨fuel, _, mapError_eq_ok.mpr hstop, mapError_eq_ok.mpr
        (readResponse_iff.mpr ⟨document, peers, entries, rfl, hpeers, hall, rfl⟩)⟩
  · constructor
    · rintro ⟨fuel, hok⟩
      obtain ⟨i, houtside⟩ := readAnswer_outside a fuel (some hash) id h hfits
      exact absurd (hok.symm.trans houtside) (by simp)
    · exact fun ⟨hfits', _⟩ => absurd hfits' hfits

/-- **How the response is cut into records does not matter**, nor how often a read is tried
again. -/
theorem readAnswer_congr (infoHash : Option Digest) (hreads : supply reads = supply reads') :
    readAnswer a fuel infoHash id reads = readAnswer a fuel infoHash id reads' := by
  unfold readAnswer
  rw [recv_congr hreads]

/-- **A list of peers in the compact form**, a string, is never read: `std::bad_variant_access` is
thrown. It is the form that `compact=1` in the request asks for. -/
theorem compact_throws (h : Answered reads r) (hfits : Fits r) {document : Dict} {stop : Nat}
    {compact : List UInt8} (hbody : Stops a r.body 0 (.ok (.dict document, stop)))
    (hpeers : document.lookup peersKey = some (.str compact)) (hash : Digest) (id : List UInt8) :
    (∃ fuel, readAnswer a fuel (some hash) id reads = .error (.node .badVariant)) ∧
      ∀ fuel peersInfo, readAnswer a fuel (some hash) id reads ≠ .ok peersInfo := by
  constructor
  · obtain ⟨⟨fuel, hdecode⟩, -⟩ := hbody
    refine ⟨fuel, ?_⟩
    have hdecode : Bencode.decode a r.body fuel 0 = .ok (.dict document, stop) := hdecode
    have hread : readResponse (some hash) id (.dict document) = .error .badVariant := by
      change (getList (index document peersKey).1 >>= fun peers =>
        readPeers (some hash) id peers []) = _
      rw [index_fst, node_eq_of_lookup hpeers]
      rfl
    rw [readAnswer_fits h hfits, hdecode]
    simp only [Except.mapError, ok_bind, hread]
  · intro fuel peersInfo hok
    obtain ⟨-, document', stop', peers, -, hstop, hlist, -⟩ := (readAnswer_iff h).mp ⟨fuel, hok⟩
    obtain ⟨hdict, -⟩ := Prod.mk.inj (Except.ok.inj (hstop.unique hbody))
    rw [Bptr.dict.inj hdict, hpeers] at hlist
    exact absurd hlist (by simp)

/-! ## What a tracker writes -/

/-- `interval`. -/
def intervalKey : List UInt8 := [0x69, 0x6E, 0x74, 0x65, 0x72, 0x76, 0x61, 0x6C]

/-- The dictionary of a peer. -/
def PeerEntry.node (e : PeerEntry) : Bptr :=
  .dict [(ipKey, .str e.ip), (peerIdKey, .str e.id), (portKey, .int e.port)]

/-- The answer of a tracker with these peers. -/
def trackerAnswer (interval : Nat) (entries : List PeerEntry) : Bptr :=
  .dict [(intervalKey, .int interval), (peersKey, .list (entries.map PeerEntry.node))]

/-- A peer as a tracker can write it: the port is one of TCP, the strings are no longer than an
`int` can say. -/
structure PeerEntry.Writable (e : PeerEntry) : Prop where
  port_nonneg : 0 ≤ e.port
  port_lt : e.port < 65536
  ip : e.ip.length ≤ Bencode.intMax
  id : e.id.length ≤ Bencode.intMax

theorem upTo_len {m : Nat} {s : List UInt8} (h : s.length ≤ m) :
    (Bencode.Numerals.upTo m).len (Bencode.decimal s.length) := by
  change Bencode.decVal (Bencode.decimal s.length) ≤ m
  rwa [Bencode.decVal_decimal]

theorem canonical_int {m n : Nat} (h : n ≤ m) : Bencode.Canonical (.upTo m) (.int n) := by
  refine .int ?_
  change Bencode.decVal (Bencode.decimal n) ≤ m
  rwa [Bencode.decVal_decimal]

theorem PeerEntry.Writable.canonical {e : PeerEntry} (h : e.Writable) :
    Bencode.Canonical (.upTo Bencode.intMax) e.node := by
  have hport : Bencode.Canonical (.upTo Bencode.intMax) (.int e.port) := by
    obtain ⟨n, hn⟩ := Int.eq_ofNat_of_zero_le h.port_nonneg
    have hlt := h.port_lt
    rw [hn] at hlt ⊢
    exact canonical_int (by unfold Bencode.intMax; omega)
  have hkeys : [ipKey, peerIdKey, portKey].Pairwise (· < ·) := by decide
  refine .dict (List.pairwise_map.mp hkeys) ?_ ?_
  · simp only [List.forall_mem_cons]
    exact ⟨upTo_len (by decide), upTo_len (by decide), upTo_len (by decide), by simp⟩
  · simp only [List.forall_mem_cons]
    exact ⟨.str (upTo_len h.ip), .str (upTo_len h.id), hport, by simp⟩

theorem canonical_trackerAnswer (interval : Nat) (hinterval : interval ≤ Bencode.intMax)
    {entries : List PeerEntry} (h : ∀ e ∈ entries, e.Writable) :
    Bencode.Canonical (.upTo Bencode.intMax) (trackerAnswer interval entries) := by
  have hkeys : [intervalKey, peersKey].Pairwise (· < ·) := by decide
  refine .dict (List.pairwise_map.mp hkeys) ?_ ?_
  · simp only [List.forall_mem_cons]
    exact ⟨upTo_len (by decide), upTo_len (by decide), by simp⟩
  · simp only [List.forall_mem_cons]
    refine ⟨canonical_int hinterval, .list fun v hv => ?_, by simp⟩
    obtain ⟨e, he, rfl⟩ := List.mem_map.mp hv
    exact (h e he).canonical

theorem PeerEntry.describes_node (e : PeerEntry) : e.Describes e.node :=
  ⟨_, rfl, rfl, rfl, rfl⟩

/-- **The peers that a tracker writes are those that are recorded**, each once and in order, with
the info hash and the peer id of this side. -/
theorem readAnswer_encode (a : Alloc) (h : Answered reads r) (hfits : Fits r) {interval : Nat}
    (hinterval : interval ≤ Bencode.intMax) {entries : List PeerEntry}
    (hentries : ∀ e ∈ entries, e.Writable)
    (hbody : r.body = Bencode.encode (trackerAnswer interval entries)) (hash : Digest)
    (id : List UInt8) :
    ∃ fuel, readAnswer a fuel (some hash) id reads =
      .ok (entries.map (PeerEntry.info hash id)) := by
  have hlen : r.body.length < 2 ^ 31 := by
    have hroom := hfits
    unfold Fits buffSize at hroom
    rw [Response.bytes_eq_head, List.length_append, List.length_cons, List.length_cons] at hroom
    omega
  have hstop := (canonical_trackerAnswer interval hinterval hentries).decodes a []
    (by rwa [List.append_nil, ← hbody])
  rw [List.append_nil, ← hbody] at hstop
  refine (readAnswer_iff h).mpr
    ⟨hfits, _, _, entries.map PeerEntry.node, entries, hstop, rfl, ?_, rfl⟩
  exact List.forall₂_map_right_iff.mpr (List.forall₂_same.mpr fun e _ => e.describes_node)

/-! ## Answers in two records -/

theorem isName_contentLength : Http.IsName Http.contentLengthKey := ⟨by decide, by decide⟩

theorem contentLength_ne_version : Http.contentLengthKey ≠ Http.versionKey := by decide

theorem contentLength_ne_status : Http.contentLengthKey ≠ Http.statusKey := by decide

theorem cr_notMem_text {digits : List UInt8} (h : Http.cr ∉ digits) :
    Http.cr ∉ Http.space :: digits := by
  intro hmem
  rcases List.mem_cons.mp hmem with heq | hmem
  · exact absurd heq (by decide)
  · exact h hmem

/-- `HTTP/1.1`. -/
def http11 : List UInt8 := [0x48, 0x54, 0x54, 0x50, 0x2F, 0x31, 0x2E, 0x31]
/-- `200`. -/
def okStatus : List UInt8 := [0x32, 0x30, 0x30]
/-- `OK`. -/
def okReason : List UInt8 := [0x4F, 0x4B]

theorem space_notMem_http11 : Http.space ∉ http11 := by decide

theorem okStatus_ne : okStatus ≠ [] := by decide

theorem space_notMem_okStatus : Http.space ∉ okStatus := by decide

theorem cr_notMem_okReason : Http.cr ∉ okReason := by decide

/-- `HTTP/1.1 200 OK` and a body, with its length as `digits`. -/
def okResponse (digits body : List UInt8) (h : Http.cr ∉ digits) : Response where
  version := http11
  moreSpaces := 0
  status := okStatus
  reason := okReason
  lines := [⟨Http.contentLengthKey, Http.space :: digits, isName_contentLength, cr_notMem_text h,
    contentLength_ne_version, contentLength_ne_status⟩]
  body := body
  version_space := space_notMem_http11
  status_ne := okStatus_ne
  status_space := space_notMem_okStatus
  reason_cr := cr_notMem_okReason

/-- The peer `1.2.3.4:6881`. -/
def samplePeer : PeerEntry where
  id := List.replicate 20 0x41
  ip := [0x31, 0x2E, 0x32, 0x2E, 0x33, 0x2E, 0x34]
  port := 6881

/-- The peer `1.2.3.5:80`. -/
def samplePeer' : PeerEntry where
  id := List.replicate 20 0x42
  ip := [0x31, 0x2E, 0x32, 0x2E, 0x33, 0x2E, 0x35]
  port := 80

theorem samplePeers_writable : ∀ e ∈ [samplePeer, samplePeer'], e.Writable := by
  simp only [List.forall_mem_cons]
  exact ⟨⟨by decide, by decide, by decide, by decide⟩,
    ⟨by decide, by decide, by decide, by decide⟩, by simp⟩

/-- The response in two records, with an interruption between them. -/
def inRecords (r : Response) : List (Answer (List UInt8) Unit) :=
  [.moved (r.bytes.take 5), .retry, .moved (r.bytes.drop 5)]

/-- The answer with the two peers. -/
def sampleResponse : Response :=
  okResponse [0x31, 0x34, 0x33]
    (Bencode.encode (trackerAnswer 1800 [samplePeer, samplePeer'])) (by decide)

theorem sampleResponse_answered : Answered (inRecords sampleResponse) sampleResponse where
  received := by decide +kernel
  complete := ⟨by decide, by decide, ⟨[0x31, 0x34, 0x33], by decide +kernel, by decide +kernel⟩,
    by decide +kernel⟩

/-- The peer id of this side. -/
def sampleId : List UInt8 := genPeerId fun _ => 7

/-- **The peers of the sample answer are recorded.** -/
theorem readAnswer_encode_sample : ∃ fuel,
    readAnswer Alloc.least fuel (some zeroDigest) sampleId (inRecords sampleResponse) =
      .ok [samplePeer.info zeroDigest sampleId, samplePeer'.info zeroDigest sampleId] :=
  readAnswer_encode Alloc.least sampleResponse_answered (by decide +kernel) (by decide)
    samplePeers_writable rfl zeroDigest sampleId

/-- **The sample answer is read**, since it fits and lists the peers. -/
theorem readAnswer_iff_sample : ∃ fuel,
    readAnswer Alloc.least fuel (some zeroDigest) sampleId (inRecords sampleResponse) =
      .ok [samplePeer.info zeroDigest sampleId, samplePeer'.info zeroDigest sampleId] := by
  have hstop := (canonical_trackerAnswer 1800 (by decide) samplePeers_writable).decodes
    Alloc.least [] (by decide +kernel)
  rw [List.append_nil] at hstop
  exact (readAnswer_iff sampleResponse_answered).mpr ⟨by decide +kernel, _, _, _,
    [samplePeer, samplePeer'], hstop, rfl,
    .cons samplePeer.describes_node (.cons samplePeer'.describes_node .nil), rfl⟩

/-- An answer in the compact form, with `1.2.3.4:6881`. -/
def compactAnswer : Dict := [(peersKey, .str [1, 2, 3, 4, 0x1A, 0xE1])]

/-- The response with `compactAnswer`. -/
def compactResponse : Response :=
  okResponse [0x31, 0x37] (Bencode.encode (.dict compactAnswer)) (by decide)

theorem compactResponse_answered : Answered (inRecords compactResponse) compactResponse where
  received := by decide +kernel
  complete := ⟨by decide, by decide, ⟨[0x31, 0x37], by decide +kernel, by decide +kernel⟩,
    by decide +kernel⟩

theorem compactAnswer_stops :
    Stops Alloc.least compactResponse.body 0 (.ok (.dict compactAnswer, 17)) := by
  have hcanonical : Bencode.Canonical (.upTo Bencode.intMax) (.dict compactAnswer) := by
    refine .dict (List.pairwise_singleton _ _) ?_ ?_
    · simp only [compactAnswer, List.forall_mem_cons]
      exact ⟨upTo_len (by decide), by simp⟩
    · simp only [compactAnswer, List.forall_mem_cons]
      exact ⟨.str (upTo_len (by decide)), by simp⟩
  exact hcanonical.decodes Alloc.least [] (by decide +kernel)

/-- **The sample answer in the compact form throws.** -/
theorem compact_throws_sample :
    (∃ fuel, readAnswer Alloc.least fuel (some zeroDigest) sampleId (inRecords compactResponse) =
      .error (.node .badVariant)) ∧
    ∀ fuel peersInfo, readAnswer Alloc.least fuel (some zeroDigest) sampleId
      (inRecords compactResponse) ≠ .ok peersInfo :=
  compact_throws compactResponse_answered (by decide +kernel) compactAnswer_stops rfl zeroDigest
    sampleId

end CometBt.Torrent
