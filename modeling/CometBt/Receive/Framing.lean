import CometBt.Lib.Units
import CometBt.Receive.Connection

/-!
# What the stream says

The abstract side of the receive path: the stream of a connection is read in units, three for the
handshake and then, for each message, its length prefix and its body. `Progress` is where such a
reader is and what it has seen; `reader info` reads one byte after the other, so there are no read
events here and nothing to split.

Three stages are final. A handshake can be rejected. A length prefix that is not positive leaves
the code where it is, and so does a `BITFIELD` on a connection that is not choked.
-/

namespace CometBt

/-- Which unit is being read. -/
inductive Stage where
  | protocolId
  | infoHash
  | peerId
  | messageSize
  | message (len : Nat)
  /-- The handshake was not what was expected. -/
  | rejected
  /-- A length prefix was zero or negative. -/
  | badPrefix
  /-- A `BITFIELD` came while the connection was not choked. -/
  | stuck
  deriving DecidableEq, Repr

/-- The handshake is behind. -/
def Stage.authenticated : Stage → Bool
  | .messageSize | .message _ | .badPrefix | .stuck => true
  | _ => false

/-- How far a stream has been read. -/
structure Progress where
  stage : Stage := .protocolId
  choked : Bool := true
  /-- Where in the stream the current unit starts. -/
  offset : Nat := 0
  prefixes : List (Nat × Int) := []
  messages : List (List UInt8) := []

namespace Progress

/-- The bytes of the current unit. -/
def need (q : Progress) : Nat :=
  match q.stage with
  | .protocolId => 20
  | .infoHash => 28
  | .peerId => 20
  | .messageSize => 4
  | .message len => len
  | .rejected | .badPrefix | .stuck => 1

/-- Whether the connection is choked after the message `msg`; none if it stays at the message. -/
def chokedAfter (choked : Bool) (msg : List UInt8) : Option Bool :=
  if msg.head? = some MessageId.bitfield.toByte then if choked then some true else none
  else if msg.head? = some MessageId.unchoke.toByte then some false
  else if msg.head? = some MessageId.choke.toByte then some true
  else some choked

/-- The unit `u` moves the reader on, to the stage `stage`. -/
def advance (q : Progress) (stage : Stage) (u : List UInt8) : Progress :=
  { q with stage := stage, offset := q.offset + u.length }

/-- After the unit `u`. -/
def next (info : PeerInfo) (q : Progress) (u : List UInt8) : Progress :=
  match q.stage with
  | .protocolId => q.advance (if u = 19 :: protocolId then .infoHash else .rejected) u
  | .infoHash =>
    q.advance (if info.infoHash.map Subtype.val = some (u.drop 8) then .peerId else .rejected) u
  | .peerId =>
    q.advance (if 20 ≤ info.remoteId.length ∧ u = info.remoteId.take 20 then .messageSize
      else .rejected) u
  | .messageSize =>
    let q' := { q with prefixes := q.prefixes ++ [(q.offset, deserializeInt u)] }
    if 0 < deserializeInt u then q'.advance (.message (deserializeInt u).toNat) u
    else { q' with stage := .badPrefix }
  | .message _ =>
    let q' := { q with messages := q.messages ++ [u] }
    match chokedAfter q.choked u with
    | some choked => { q'.advance .messageSize u with choked := choked }
    | none => { q' with stage := .stuck }
  | .rejected | .badPrefix | .stuck => q

end Progress

/-- The reader of a connection to `info`. -/
def reader (info : PeerInfo) : Lib.Reader UInt8 Progress := ⟨Progress.need, Progress.next info⟩

/-- Where the stream `bs` leaves the reader, and the bytes of its incomplete unit. -/
def readStream (info : PeerInfo) (bs : List UInt8) : Progress × List UInt8 :=
  (reader info).feed ({}, []) bs

theorem readStream_append (info : PeerInfo) (xs ys : List UInt8) :
    readStream info (xs ++ ys) = (reader info).feed (readStream info xs) ys :=
  (reader info).feed_append ({}, []) xs ys

namespace Progress

variable {info : PeerInfo} {q : Progress}

/-- A final stage. -/
def Final (q : Progress) : Prop := q.stage = .rejected ∨ q.stage = .badPrefix ∨ q.stage = .stuck

theorem Final.next_eq (h : q.Final) (u : List UInt8) : q.next info u = q := by
  rcases h with h | h | h <;> simp only [next, h]

theorem Final.feed_eq (h : q.Final) (pending xs : List UInt8) :
    ((reader info).feed (q, pending) xs).1 = q :=
  (reader info).feed_final h.next_eq pending xs

/-! ### What the reader never takes back -/

theorem next_messages (info : PeerInfo) (q : Progress) (u : List UInt8) :
    q.messages <+: (q.next info u).messages := by
  unfold next
  split
  · exact List.prefix_refl _
  · exact List.prefix_refl _
  · exact List.prefix_refl _
  · simp only
    split <;> exact List.prefix_refl _
  · simp only
    split <;> exact List.prefix_append _ _
  all_goals exact List.prefix_refl _

theorem feed_messages (p : Progress × List UInt8) (xs : List UInt8) :
    p.1.messages <+: ((reader info).feed p xs).1.messages :=
  (reader info).feed_induction (I := fun q => p.1.messages <+: q.messages)
    (fun q u _ h => h.trans (next_messages info q u)) p (List.prefix_refl _) xs

theorem next_prefixes (info : PeerInfo) (q : Progress) (u : List UInt8) :
    q.prefixes <+: (q.next info u).prefixes := by
  unfold next
  split
  · exact List.prefix_refl _
  · exact List.prefix_refl _
  · exact List.prefix_refl _
  · simp only
    split <;> exact List.prefix_append _ _
  · simp only
    split <;> exact List.prefix_refl _
  all_goals exact List.prefix_refl _

theorem feed_prefixes (p : Progress × List UInt8) (xs : List UInt8) :
    p.1.prefixes <+: ((reader info).feed p xs).1.prefixes :=
  (reader info).feed_induction (I := fun q => p.1.prefixes <+: q.prefixes)
    (fun q u _ h => h.trans (next_prefixes info q u)) p (List.prefix_refl _) xs

theorem next_authenticated (info : PeerInfo) (q : Progress) (u : List UInt8)
    (h : q.stage.authenticated = true) : (q.next info u).stage.authenticated = true := by
  unfold next
  split <;> rename_i hs
  · exact absurd h (by simp [hs, Stage.authenticated])
  · exact absurd h (by simp [hs, Stage.authenticated])
  · exact absurd h (by simp [hs, Stage.authenticated])
  · simp only
    split <;> rfl
  · simp only
    split <;> rfl
  all_goals exact h

theorem feed_authenticated (p : Progress × List UInt8) (xs : List UInt8)
    (h : p.1.stage.authenticated = true) :
    ((reader info).feed p xs).1.stage.authenticated = true :=
  (reader info).feed_induction (I := fun q => q.stage.authenticated = true)
    (fun q u _ => next_authenticated info q u) p h xs

/-! ### The length of the current message -/

/-- The length of the message being read has been read as a prefix. -/
theorem feed_declared (info : PeerInfo) (bs : List UInt8) {len : Nat}
    (h : (readStream info bs).1.stage = .message len) :
    ∃ o, (o, (len : Int)) ∈ (readStream info bs).1.prefixes := by
  refine (reader info).feed_induction
    (I := fun q => ∀ len, q.stage = .message len → ∃ o, (o, (len : Int)) ∈ q.prefixes) ?_ ({}, [])
    ?_ bs len h
  · intro q u _ _ len hlen
    change (q.next info u).stage = _ at hlen
    show ∃ o, _ ∈ (q.next info u).prefixes
    unfold next at hlen ⊢
    split at hlen <;> rename_i hsg
    · split at hlen <;> exact absurd hlen (by simp [advance])
    · split at hlen <;> exact absurd hlen (by simp [advance])
    · split at hlen <;> exact absurd hlen (by simp [advance])
    · simp only at hlen ⊢
      split at hlen
      · rename_i hpos
        rw [if_pos hpos]
        obtain rfl := Stage.message.inj hlen
        refine ⟨q.offset, List.mem_append_right _ (List.mem_singleton.mpr ?_)⟩
        rw [Int.toNat_of_nonneg hpos.le]
      · exact absurd hlen (by simp)
    · simp only at hlen
      split at hlen <;> exact absurd hlen (by simp [advance])
    all_goals exact absurd (hsg.symm.trans hlen) (by simp)
  · intro len hlen
    exact absurd hlen (by simp)

end Progress

end CometBt
