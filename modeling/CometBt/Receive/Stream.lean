import CometBt.Receive.Framing

/-!
# Streams, written out

What the reader of `Framing` makes of a stream, in terms of the stream: a handshake, then messages
with their length prefixes.

* `feed_handshake`, `feed_encodeAll`: what such a stream does to the reader.
* `readStream_spells`: what a stream must have been, given where it has left the reader. From both,
  the stages are conditions on the stream (`authenticated_iff`, `badPrefix_iff`).
-/

namespace CometBt

/-! ## Messages and handshakes -/

/-- A message behind its length prefix. -/
def encode (msg : List UInt8) : List UInt8 := serializeInt msg.length ++ msg

/-- Messages behind their length prefixes. -/
def encodeAll (msgs : List (List UInt8)) : List UInt8 := (msgs.map encode).flatten

/-- A handshake that a connection to `info` accepts. -/
def Handshake (info : PeerInfo) (hs : List UInt8) : Prop :=
  ∃ (reserved : List UInt8) (h : Digest), reserved.length = 8 ∧ info.infoHash = some h ∧
    20 ≤ info.remoteId.length ∧
    hs = 19 :: (protocolId ++ reserved ++ h.val ++ info.remoteId.take 20)

/-- A message whose length is positive and an `int`. -/
def Framed (msg : List UInt8) : Prop := msg ≠ [] ∧ msg.length < 2 ^ 31

/-- Whether the connection is choked after a message it moves on from. -/
def chokedNext (choked : Bool) (msg : List UInt8) : Bool :=
  if msg.head? = some MessageId.unchoke.toByte then false
  else if msg.head? = some MessageId.choke.toByte then true
  else choked

/-- `BITFIELD` occurs only while the connection is choked. -/
def OnlyWhileChoked : Bool → List (List UInt8) → Prop
  | _, [] => True
  | choked, msg :: msgs => (msg.head? = some MessageId.bitfield.toByte → choked = true) ∧
      OnlyWhileChoked (chokedNext choked msg) msgs

theorem encode_length (msg : List UInt8) : (encode msg).length = msg.length + 4 := by
  rw [encode, List.length_append, serializeInt_length]
  omega

theorem encodeAll_cons (msg : List UInt8) (msgs : List (List UInt8)) :
    encodeAll (msg :: msgs) = encode msg ++ encodeAll msgs := rfl

theorem encodeAll_concat (msgs : List (List UInt8)) (msg : List UInt8) :
    encodeAll (msgs ++ [msg]) = encodeAll msgs ++ encode msg := by
  simp [encodeAll]

theorem Handshake.length_eq {info : PeerInfo} {hs : List UInt8} (h : Handshake info hs) :
    hs.length = 68 := by
  obtain ⟨reserved, hash, hres, -, hid, rfl⟩ := h
  have hhash := hash.property
  have hproto : protocolId.length = 19 := rfl
  simp only [List.length_cons, List.length_append, List.length_take, hres, hhash, hproto]
  omega

theorem onlyWhileChoked_concat {choked : Bool} {msgs : List (List UInt8)} {msg : List UInt8} :
    OnlyWhileChoked choked (msgs ++ [msg]) ↔ OnlyWhileChoked choked msgs ∧
      (msg.head? = some MessageId.bitfield.toByte → msgs.foldl chokedNext choked = true) := by
  induction msgs generalizing choked with
  | nil => simp [OnlyWhileChoked]
  | cons m msgs ih => simp only [List.cons_append, OnlyWhileChoked, ih, List.foldl_cons, and_assoc]

namespace Progress

variable {info : PeerInfo} {q : Progress}

@[simp] theorem reader_need : (reader info).need q = q.need := rfl

@[simp] theorem reader_next (u : List UInt8) : (reader info).next q u = q.next info u := rfl

theorem chokedAfter_eq {choked choked' : Bool} {msg : List UInt8} :
    chokedAfter choked msg = some choked' ↔
      (msg.head? = some MessageId.bitfield.toByte → choked = true) ∧
        choked' = chokedNext choked msg := by
  unfold chokedAfter chokedNext
  by_cases hbit : msg.head? = some MessageId.bitfield.toByte
  · have hun : MessageId.bitfield.toByte ≠ MessageId.unchoke.toByte := by decide
    have hcho : MessageId.bitfield.toByte ≠ MessageId.choke.toByte := by decide
    rw [hbit]
    simp only [Option.some.injEq, if_true, forall_const, if_neg hun, if_neg hcho]
    cases choked <;> simp [eq_comm]
  · rw [if_neg hbit]
    simp only [hbit, false_implies, true_and]
    split
    · simp [eq_comm]
    · split <;> simp [eq_comm]

/-! ## What a stream does -/

/-- Between messages, after the message `msg`. -/
def took (q : Progress) (msg : List UInt8) : Progress :=
  { stage := .messageSize
    choked := chokedNext q.choked msg
    offset := q.offset + (encode msg).length
    prefixes := q.prefixes ++ [(q.offset, (msg.length : Int))]
    messages := q.messages ++ [msg] }

/-- The first field of a handshake. -/
theorem feed_protocolId :
    (reader info).feed ({}, []) (19 :: protocolId) =
      ({ stage := .infoHash, offset := 20 }, []) := by
  rw [(reader info).feed_unit {} (19 :: protocolId) (by simp) rfl]
  rfl

/-- The first two. -/
theorem feed_infoHash {reserved : List UInt8} {h : Digest} (hres : reserved.length = 8)
    (hinfo : info.infoHash = some h) :
    (reader info).feed ({}, []) (19 :: (protocolId ++ reserved ++ h.val)) =
      ({ stage := .peerId, offset := 48 }, []) := by
  have hhash := h.property
  have hsplit : 19 :: (protocolId ++ reserved ++ h.val) =
      (19 :: protocolId) ++ (reserved ++ h.val) := by
    simp only [List.cons_append, List.append_assoc]
  have hdrop : (reserved ++ h.val).drop 8 = h.val := by
    rw [← hres, List.drop_left]
  have hlen : (reserved ++ h.val).length = 28 := by rw [List.length_append, hres, hhash]
  rw [hsplit, Lib.Reader.feed_append, feed_protocolId,
    (reader info).feed_unit _ _ (List.ne_nil_of_length_pos (by omega)) hlen, reader_next, next]
  simp only
  rw [hdrop, if_pos (by rw [hinfo]; rfl), advance, hlen]

/-- **The handshake** leads to the first length prefix. -/
theorem feed_handshake {hs : List UInt8} (h : Handshake info hs) :
    (reader info).feed ({}, []) hs = ({ stage := .messageSize, offset := 68 }, []) := by
  obtain ⟨reserved, hash, hres, hinfo, hid, rfl⟩ := h
  have hsplit : 19 :: (protocolId ++ reserved ++ hash.val ++ info.remoteId.take 20) =
      19 :: (protocolId ++ reserved ++ hash.val) ++ info.remoteId.take 20 := rfl
  have hlen : (info.remoteId.take 20).length = 20 := by rw [List.length_take]; omega
  rw [hsplit, Lib.Reader.feed_append, feed_infoHash hres hinfo,
    (reader info).feed_unit _ _ (List.ne_nil_of_length_pos (by omega)) hlen, reader_next, next]
  simp only
  rw [if_pos ⟨hid, trivial⟩, advance, hlen]

/-- A length prefix leads to its message. -/
theorem feed_prefix (hsg : q.stage = .messageSize) {n : Nat} (h0 : 0 < n) (hn : n < 2 ^ 31) :
    (reader info).feed (q, []) (serializeInt n) =
      ({ q with
          stage := .message n
          offset := q.offset + 4
          prefixes := q.prefixes ++ [(q.offset, (n : Int))] }, []) := by
  have hval : deserializeInt (serializeInt n) = n := deserialize_serialize (by omega) (by omega)
  have hneed : q.need = 4 := by rw [need, hsg]
  rw [(reader info).feed_unit q (serializeInt n) (List.cons_ne_nil _ _) hneed.symm, reader_next,
    next, hsg]
  simp only
  rw [hval, if_pos (by omega), advance, serializeInt_length, Int.toNat_natCast]

/-- **A message** behind its length prefix. -/
theorem feed_encode (hsg : q.stage = .messageSize) {msg : List UInt8} (hmsg : Framed msg)
    (hbit : msg.head? = some MessageId.bitfield.toByte → q.choked = true) :
    (reader info).feed (q, []) (encode msg) = (q.took msg, []) := by
  have h0 := List.length_pos_iff.mpr hmsg.1
  rw [encode, Lib.Reader.feed_append, feed_prefix hsg h0 hmsg.2,
    (reader info).feed_unit _ msg hmsg.1 rfl]
  rw [reader_next, next]
  simp only [chokedAfter_eq.mpr ⟨hbit, rfl⟩]
  rw [took, encode_length, advance]
  simp only [Nat.add_assoc, Nat.add_comm 4]

/-- **Messages** behind their length prefixes. -/
theorem feed_encodeAll {msgs : List (List UInt8)} (hsg : q.stage = .messageSize)
    (hmsgs : ∀ msg ∈ msgs, Framed msg) (hbit : OnlyWhileChoked q.choked msgs) :
    (reader info).feed (q, []) (encodeAll msgs) = (msgs.foldl took q, []) := by
  induction msgs generalizing q with
  | nil => rfl
  | cons msg msgs ih =>
    obtain ⟨hmsg, hmsgs⟩ := List.forall_mem_cons.mp hmsgs
    rw [encodeAll_cons, Lib.Reader.feed_append, feed_encode hsg hmsg hbit.1]
    exact ih rfl hmsgs hbit.2

theorem foldl_took_stage (msgs : List (List UInt8)) (hsg : q.stage = .messageSize) :
    (msgs.foldl took q).stage = .messageSize := by
  induction msgs generalizing q with
  | nil => exact hsg
  | cons msg msgs ih => exact ih rfl

theorem foldl_took_messages (msgs : List (List UInt8)) :
    (msgs.foldl took q).messages = q.messages ++ msgs := by
  induction msgs generalizing q with
  | nil => rw [List.foldl_nil, List.append_nil]
  | cons msg msgs ih => rw [List.foldl_cons, ih, took, List.append_assoc, List.singleton_append]

theorem foldl_took_values (msgs : List (List UInt8)) :
    (msgs.foldl took q).prefixes.map Prod.snd =
      q.prefixes.map Prod.snd ++ msgs.map fun msg => (msg.length : Int) := by
  induction msgs generalizing q with
  | nil => rw [List.foldl_nil, List.map_nil, List.append_nil]
  | cons msg msgs ih =>
    rw [List.foldl_cons, ih, took, List.map_append, List.append_assoc, List.map_cons]
    rfl

/-! ## What a stream must have been -/

/-- `bs` is a handshake and the messages seen, whole. -/
structure Spelled (info : PeerInfo) (q : Progress) (bs : List UInt8) : Prop where
  framed : ∀ msg ∈ q.messages, Framed msg
  choked_eq : q.choked = q.messages.foldl chokedNext true
  bitfields : OnlyWhileChoked true q.messages
  bytes_eq : ∃ hs, Handshake info hs ∧ bs = hs ++ encodeAll q.messages

theorem Spelled.congr {q' : Progress} {bs : List UInt8} (h : Spelled info q bs)
    (hch : q'.choked = q.choked) (hmess : q'.messages = q.messages) : Spelled info q' bs := by
  obtain ⟨hframed, hchoked, hbit, hbytes⟩ := h
  refine ⟨?_, ?_, ?_, ?_⟩
  · rw [hmess]
    exact hframed
  · rw [hch, hmess]
    exact hchoked
  · rw [hmess]
    exact hbit
  · rw [hmess]
    exact hbytes

/-- The units that lead to `q` add up to `bs`. -/
inductive Spells (info : PeerInfo) (q : Progress) (bs : List UInt8) : Prop where
  | protocolId : q.stage = .protocolId → q.choked = true → q.messages = [] → bs = [] →
      Spells info q bs
  | infoHash : q.stage = .infoHash → q.choked = true → q.messages = [] →
      bs = 19 :: CometBt.protocolId → Spells info q bs
  | peerId (reserved : List UInt8) (h : Digest) : q.stage = .peerId → q.choked = true →
      q.messages = [] → reserved.length = 8 → info.infoHash = some h →
      bs = 19 :: (CometBt.protocolId ++ reserved ++ h.val) → Spells info q bs
  | messageSize : q.stage = .messageSize → Spelled info q bs → Spells info q bs
  | message (n : Nat) (front : List UInt8) : q.stage = .message n → 0 < n → n < 2 ^ 31 →
      Spelled info q front → bs = front ++ serializeInt n → Spells info q bs
  | rejected : q.stage = .rejected → q.messages = [] → Spells info q bs
  | badPrefix (front u rest : List UInt8) : q.stage = .badPrefix → Spelled info q front →
      u.length = 4 → deserializeInt u ≤ 0 → bs = front ++ u ++ rest → Spells info q bs
  | stuck (hs rest : List UInt8) : q.stage = .stuck → Handshake info hs → bs = hs ++ rest →
      Spells info q bs

/-- Every unit keeps it. -/
theorem next_spells {bs u : List UInt8} (hlen : u.length = max q.need 1) (h : Spells info q bs) :
    Spells info (q.next info u) (bs ++ u) := by
  cases h with
  | protocolId hsg hch hmess hbs =>
    rw [next, hsg]
    simp only
    split
    · rename_i hu
      exact .infoHash rfl hch hmess (by rw [hbs, hu]; rfl)
    · exact .rejected rfl hmess
  | infoHash hsg hch hmess hbs =>
    have h28 : u.length = 28 := by rw [hlen, need, hsg]; rfl
    rw [next, hsg]
    simp only
    split
    · rename_i hu
      obtain ⟨hash, hinfo, hval⟩ := Option.map_eq_some_iff.mp hu
      refine .peerId (u.take 8) hash rfl hch hmess ?_ hinfo ?_
      · rw [List.length_take]
        omega
      · rw [hval, List.append_assoc, List.take_append_drop, hbs]
        rfl
    · exact .rejected rfl hmess
  | peerId reserved hash hsg hch hmess hres hinfo hbs =>
    rw [next, hsg]
    simp only
    split
    · rename_i hu
      refine .messageSize rfl ⟨?_, ?_, ?_, _, ⟨reserved, hash, hres, hinfo, hu.1, rfl⟩, ?_⟩
      · simp [advance, hmess]
      · simp [advance, hmess, hch]
      · simp [advance, hmess, OnlyWhileChoked]
      · simp [advance, hmess, encodeAll, hbs, ← hu.2]
    · exact .rejected rfl hmess
  | messageSize hsg hfront =>
    have h4 : u.length = 4 := by rw [hlen, need, hsg]; rfl
    rw [next, hsg]
    simp only
    split
    · have hlt := deserializeInt_lt u
      refine .message _ bs rfl (by omega) (by omega) (hfront.congr rfl rfl) ?_
      rw [Int.toNat_of_nonneg (by omega), serialize_deserialize h4]
    · exact .badPrefix bs u [] rfl (hfront.congr rfl rfl) h4 (by omega) (List.append_nil _).symm
  | message n front hsg h0 hn hfront hbs =>
    have hun : u.length = n := by
      rw [hlen, need, hsg]
      simp only
      omega
    obtain ⟨hframed, hchoked, hbit, hs, hhs, hfr⟩ := hfront
    rw [next, hsg]
    simp only
    split
    · rename_i choked hch
      obtain ⟨hwhile, hnext⟩ := chokedAfter_eq.mp hch
      refine .messageSize rfl ⟨?_, ?_, ?_, hs, hhs, ?_⟩
      · intro msg hmsg
        rcases List.mem_append.mp hmsg with hmsg | hmsg
        · exact hframed msg hmsg
        · rw [List.mem_singleton.mp hmsg]
          exact ⟨List.ne_nil_of_length_pos (by omega), by omega⟩
      · show choked = (q.messages ++ [u]).foldl chokedNext true
        rw [List.foldl_append, ← hchoked, hnext]
        rfl
      · show OnlyWhileChoked true (q.messages ++ [u])
        rw [onlyWhileChoked_concat, ← hchoked]
        exact ⟨hbit, hwhile⟩
      · show bs ++ u = hs ++ encodeAll (q.messages ++ [u])
        rw [encodeAll_concat, encode, hun, hbs, hfr]
        simp only [List.append_assoc]
    · refine .stuck hs (encodeAll q.messages ++ serializeInt n ++ u) rfl hhs ?_
      rw [hbs, hfr]
      simp only [List.append_assoc]
  | rejected hsg hmess =>
    rw [next, hsg]
    exact .rejected hsg hmess
  | badPrefix front v rest hsg hfront hv hval hbs =>
    rw [next, hsg]
    exact .badPrefix front v (rest ++ u) hsg hfront hv hval (by rw [hbs, List.append_assoc])
  | stuck hs rest hsg hhs hbs =>
    rw [next, hsg]
    exact .stuck hs (rest ++ u) hsg hhs (by rw [hbs, List.append_assoc])

end Progress

open Progress

/-- **What a stream must have been**, given where it has left the reader. -/
theorem readStream_spells (info : PeerInfo) (bs : List UInt8) :
    ∃ front, Spells info (readStream info bs).1 front ∧ bs = front ++ (readStream info bs).2 ∧
      (readStream info bs).2.length < max (readStream info bs).1.need 1 :=
  (reader info).feed_consumed (I := fun q front => Spells info q front)
    (fun _ _ _ hlen h => next_spells hlen h) (.protocolId rfl rfl rfl rfl) bs

/-! ## Stages as conditions on the stream -/

/-- **The reader is past the handshake** if and only if the stream starts with one. -/
theorem authenticated_iff {info : PeerInfo} {bs : List UInt8} :
    (readStream info bs).1.stage.authenticated = true ↔
      ∃ hs rest, Handshake info hs ∧ bs = hs ++ rest := by
  constructor
  · intro hauth
    obtain ⟨front, hfront, hbs, -⟩ := readStream_spells info bs
    generalize readStream info bs = p at *
    rw [hbs]
    cases hfront with
    | protocolId hsg => rw [hsg] at hauth; exact absurd hauth (by decide)
    | infoHash hsg => rw [hsg] at hauth; exact absurd hauth (by decide)
    | peerId _ _ hsg => rw [hsg] at hauth; exact absurd hauth (by decide)
    | rejected hsg => rw [hsg] at hauth; exact absurd hauth (by decide)
    | messageSize _ hspelled =>
      obtain ⟨hs, hhs, rfl⟩ := hspelled.bytes_eq
      exact ⟨hs, _, hhs, List.append_assoc _ _ _⟩
    | message n _ _ _ _ hspelled hfr =>
      obtain ⟨hs, hhs, rfl⟩ := hspelled.bytes_eq
      exact ⟨hs, _, hhs, by rw [hfr]; simp only [List.append_assoc]; rfl⟩
    | badPrefix _ u rest _ hspelled _ _ hfr =>
      obtain ⟨hs, hhs, rfl⟩ := hspelled.bytes_eq
      exact ⟨hs, _, hhs, by rw [hfr]; simp only [List.append_assoc]; rfl⟩
    | stuck hs rest _ hhs hfr => exact ⟨hs, _, hhs, by rw [hfr, List.append_assoc]⟩
  · rintro ⟨hs, rest, hhs, rfl⟩
    rw [readStream_append, readStream, feed_handshake hhs]
    exact feed_authenticated _ _ rfl

/-- No message comes before the handshake. -/
theorem messages_eq_nil {info : PeerInfo} {bs : List UInt8}
    (h : (readStream info bs).1.stage.authenticated = false) :
    (readStream info bs).1.messages = [] := by
  obtain ⟨front, hfront, -, -⟩ := readStream_spells info bs
  generalize readStream info bs = p at *
  cases hfront with
  | protocolId _ _ hmess => exact hmess
  | infoHash _ _ hmess => exact hmess
  | peerId _ _ _ _ hmess => exact hmess
  | rejected _ hmess => exact hmess
  | messageSize hsg => rw [hsg] at h; exact absurd h (by decide)
  | message _ _ hsg => rw [hsg] at h; exact absurd h (by simp [Stage.authenticated])
  | badPrefix _ _ _ hsg => rw [hsg] at h; exact absurd h (by decide)
  | stuck _ _ hsg => rw [hsg] at h; exact absurd h (by decide)

/-- The stream has, where a length prefix should be, four bytes whose value is not positive. -/
def HasBadPrefix (info : PeerInfo) (bs : List UInt8) : Prop :=
  ∃ hs msgs u rest, Handshake info hs ∧ (∀ msg ∈ msgs, Framed msg) ∧ OnlyWhileChoked true msgs ∧
    u.length = 4 ∧ deserializeInt u ≤ 0 ∧ bs = hs ++ encodeAll msgs ++ u ++ rest

/-- **The reader stops at a length prefix** if and only if there is such a one in the stream. -/
theorem badPrefix_iff {info : PeerInfo} {bs : List UInt8} :
    (readStream info bs).1.stage = .badPrefix ↔ HasBadPrefix info bs := by
  constructor
  · intro hbad
    obtain ⟨front, hfront, hbs, -⟩ := readStream_spells info bs
    generalize readStream info bs = p at *
    cases hfront with
    | badPrefix _ u rest _ hspelled hu hval hfr =>
      obtain ⟨hs, hhs, rfl⟩ := hspelled.bytes_eq
      refine ⟨hs, p.1.messages, u, rest ++ p.2, hhs, hspelled.framed, hspelled.bitfields, hu,
        hval, ?_⟩
      rw [hbs, hfr, List.append_assoc _ rest]
    | protocolId hsg => exact absurd (hsg.symm.trans hbad) (by decide)
    | infoHash hsg => exact absurd (hsg.symm.trans hbad) (by decide)
    | peerId _ _ hsg => exact absurd (hsg.symm.trans hbad) (by decide)
    | messageSize hsg => exact absurd (hsg.symm.trans hbad) (by decide)
    | message n _ hsg => exact absurd (hsg.symm.trans hbad) (by simp)
    | rejected hsg => exact absurd (hsg.symm.trans hbad) (by decide)
    | stuck _ _ hsg => exact absurd (hsg.symm.trans hbad) (by decide)
  · rintro ⟨hs, msgs, u, rest, hhs, hframed, hbit, hu, hval, rfl⟩
    rw [readStream_append, readStream_append, readStream_append, readStream, feed_handshake hhs,
      feed_encodeAll rfl hframed hbit]
    have hsg := foldl_took_stage (q := { stage := .messageSize, offset := 68 }) msgs rfl
    generalize msgs.foldl took _ = q at hsg
    have hnext : (q.next info u).stage = .badPrefix := by
      rw [next, hsg]
      simp only
      rw [if_neg (by omega)]
    rw [(reader info).feed_unit q u (List.ne_nil_of_length_pos (by omega))
      (by rw [reader_need, need, hsg, hu]), reader_next,
      Final.feed_eq (Or.inr (Or.inl hnext))]
    exact hnext

end CometBt
