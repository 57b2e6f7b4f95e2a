import CometBt.Lib.Mailbox
import CometBt.Session.Conservation

/-!
# The shared `uv_async_t` (`handle_unchoke`, `handle_piece`, `try_download`)

The session as libuv drives it. All connections have one `m_async`: a handler stores its record in
`m_async->data` and calls `uv_async_send`, and the loop calls `try_download` on what is stored there
when it comes round. libuv may answer several sends by one call, so the handle is a mailbox of one
slot (`Lib.Mailbox`), and whether a send is merged is up to the environment.

* `try_download` frees the record and leaves the pointer; one more call reads freed memory
  (`Abort.outOfRange`).
* `records_lossless_iff`: no record is lost in exactly the runs in which no handler stores one while
  a callback is due.
* `loop_delivers`: these runs are runs of the idealised session of `Delivery.lean`, so what holds
  there holds of them (`loop_pieceLaw`).
* `loop_covered`: any run is one of the idealised session, in which the records that are
  overwritten stay pending for ever. So what holds in every state of that session holds here.
-/

namespace CometBt

open Lib

/-- The session and the handle its connections share. -/
structure Loop where
  session : Session
  async : Mailbox SendParams := {}

/-- What the loop does next. -/
inductive Turn where
  /-- `do_message` on a connection; libuv merges a send of it, if it can, or does not. -/
  | message (peer : Nat) (msg : List UInt8) (merged : Bool)
  /-- `try_download`, if it is due. -/
  | callback
  /-- A read error on a connection: `uv_close` and `on_remote_close`. -/
  | close (peer : Nat)
  deriving Repr

/-- The message is one whose handler stores a record. -/
def storesRecord (msg : List UInt8) : Bool :=
  match msg with
  | [] => false
  | msgId :: _ => msgId = MessageId.unchoke.toByte || msgId = MessageId.piece.toByte

namespace Loop

variable {sha1 : List UInt8 → Digest} {s s' : Loop}

/-- One turn. What cannot happen changes nothing. -/
def step (sha1 : List UInt8 → Digest) (s : Loop) : Turn → Except Abort Loop
  | .message k msg merged =>
    if s.session.isOpen k then do
      let (session, stored) ← s.session.doMessage k msg
      match stored with
      | none => return { s with session }
      | some params => return { session, async := s.async.post params merged }
    else .ok s
  | .callback =>
    if s.async.due = 0 then .ok s
    else match s.async.slot with
      | none => .error .outOfRange
      | some params => do
        let session ← s.session.tryDownload sha1 params
        return { session, async := s.async.take }
  | .close k =>
    if s.session.isOpen k then do
      let session ← s.session.remoteClose k
      return { s with session }
    else .ok s

/-- A handler stores a record in this turn. -/
def Stores (s : Loop) : Turn → Prop
  | .message k msg _ => s.session.isOpen k = true ∧ storesRecord msg = true
  | _ => False

/-- How a turn goes. -/
inductive Stepped (sha1 : List UInt8 → Digest) (s : Loop) : Turn → Loop → Prop where
  | message {k : Nat} {msg : List UInt8} {merged : Bool} {session : Session} :
      s.session.isOpen k = true → s.session.doMessage k msg = .ok (session, none) →
      Stepped sha1 s (.message k msg merged) { s with session }
  | stored {k : Nat} {msg : List UInt8} {merged : Bool} {session : Session}
      {params : SendParams} : s.session.isOpen k = true →
      s.session.doMessage k msg = .ok (session, some params) →
      Stepped sha1 s (.message k msg merged) ⟨session, s.async.post params merged⟩
  | callback {params : SendParams} {session : Session} : s.async.due ≠ 0 →
      s.async.slot = some params → s.session.tryDownload sha1 params = .ok session →
      Stepped sha1 s .callback ⟨session, s.async.take⟩
  | close {k : Nat} {session : Session} : s.session.isOpen k = true →
      s.session.remoteClose k = .ok session → Stepped sha1 s (.close k) { s with session }
  | shut {k : Nat} {msg : List UInt8} {merged : Bool} : s.session.isOpen k = false →
      Stepped sha1 s (.message k msg merged) s
  | idle : s.async.due = 0 → Stepped sha1 s .callback s
  | gone {k : Nat} : s.session.isOpen k = false → Stepped sha1 s (.close k) s

/-- **A turn**, when it does not stop the process. -/
theorem step_cases {e : Turn} (h : step sha1 s e = .ok s') : Stepped sha1 s e s' := by
  cases e with
  | message k msg merged =>
    simp only [step] at h
    split_ifs at h with hopen
    · obtain ⟨⟨session, stored⟩, hmsg, h⟩ := bind_eq_ok.mp h
      cases stored with
      | none =>
        obtain rfl := Except.ok.inj h
        exact .message hopen hmsg
      | some params =>
        obtain rfl := Except.ok.inj h
        exact .stored hopen hmsg
    · obtain rfl := Except.ok.inj h
      exact .shut (Bool.eq_false_iff.mpr hopen)
  | callback =>
    simp only [step] at h
    split_ifs at h with hdue
    · obtain rfl := Except.ok.inj h
      exact .idle hdue
    · split at h
      · exact absurd h (by simp)
      · rename_i params hslot
        obtain ⟨session, htry, h⟩ := bind_eq_ok.mp h
        obtain rfl := Except.ok.inj h
        exact .callback hdue hslot htry
  | close k =>
    simp only [step] at h
    split_ifs at h with hopen
    · obtain ⟨session, hclose, h⟩ := bind_eq_ok.mp h
      obtain rfl := Except.ok.inj h
      exact .close hopen hclose
    · obtain rfl := Except.ok.inj h
      exact .gone (Bool.eq_false_iff.mpr hopen)

/-- Which messages leave a record can be told from their first byte. -/
theorem doMessage_stores {s s' : Session} {k : Nat} {msg : List UInt8}
    {stored : Option SendParams} (h : s.doMessage k msg = .ok (s', stored)) :
    stored.isSome = storesRecord msg := by
  cases msg with
  | nil => exact absurd h (by simp [Session.doMessage])
  | cons msgId rest =>
    simp only [Session.doMessage] at h
    unfold storesRecord
    split_ifs at h with hbits hun hch hpiece
    · obtain ⟨s₁, -, h⟩ := bind_eq_ok.mp h
      obtain ⟨-, rfl⟩ := Prod.mk.inj (Except.ok.inj h)
      simp [hbits, MessageId.toByte]
    · obtain ⟨⟨s₁, params⟩, -, h⟩ := bind_eq_ok.mp h
      obtain ⟨-, rfl⟩ := Prod.mk.inj (Except.ok.inj h)
      simp [hun]
    · obtain ⟨s₁, -, h⟩ := bind_eq_ok.mp h
      obtain ⟨-, rfl⟩ := Prod.mk.inj (Except.ok.inj h)
      simp [hch, MessageId.toByte]
    · obtain ⟨⟨s₁, params⟩, -, h⟩ := bind_eq_ok.mp h
      obtain ⟨-, rfl⟩ := Prod.mk.inj (Except.ok.inj h)
      simp [hpiece]
    · obtain ⟨-, rfl⟩ := Prod.mk.inj (Except.ok.inj h)
      simp [hun, hpiece]

/-! ## No record is lost -/

/-- The handlers post, `try_download` takes, and nothing else touches the handle. -/
theorem uses_async (sha1 : List UInt8 → Digest) :
    Mailbox.Uses (step sha1) Loop.async Stores where
  post := by
    intro s e t hstep hstores
    cases step_cases hstep with
    | message _ hmsg => exact absurd ((doMessage_stores hmsg).trans hstores.2) (by simp)
    | stored => exact ⟨_, _, rfl⟩
    | shut hshut => exact absurd (hshut.symm.trans hstores.1) (by simp)
    | callback => exact hstores.elim
    | close => exact hstores.elim
    | idle => exact hstores.elim
    | gone => exact hstores.elim
  other := by
    intro s e t hstep hstores
    cases step_cases hstep with
    | message => exact .inl rfl
    | stored hopen hmsg => exact absurd ⟨hopen, (doMessage_stores hmsg).symm⟩ hstores
    | callback => exact .inr rfl
    | close => exact .inl rfl
    | shut => exact .inl rfl
    | idle => exact .inl rfl
    | gone => exact .inl rfl

/-- `session::start`, with nothing sent. -/
def initial (pieceLength : Int) (hashes : List Digest) (peers : Nat) : Loop where
  session := .start pieceLength hashes peers

/-- **Every record that a handler stores is processed by exactly one call of `try_download`** in
exactly the runs in which no handler stores one while a callback is due. -/
theorem records_lossless_iff (sha1 : List UInt8 → Digest) (pieceLength : Int)
    (hashes : List Digest) (peers : Nat) (turns : List Turn) (s : Loop)
    (hrun : runFrom (step sha1) (initial pieceLength hashes peers) turns = .ok s) :
    s.async.Lossless ↔ Along (step sha1) (Mailbox.Answered Loop.async Stores)
      (initial pieceLength hashes peers) turns :=
  (uses_async sha1).run_lossless_iff Mailbox.lossless_empty hrun

/-- Two connections unchoke, and the record of the first is processed before the second does. -/
theorem records_lossless_turns :
    ∃ s, runFrom (step fun _ => zeroDigest) (initial 4 [zeroDigest, zeroDigest] 2)
        [.message 0 [1] true, .callback, .message 1 [1] true, .callback] = .ok s ∧
      s.async.taken = [⟨0, 0, .unchoke⟩, ⟨1, 1, .unchoke⟩] ∧ s.async.Lossless := by
  obtain ⟨s, hrun, htaken⟩ : ∃ s, runFrom (step fun _ => zeroDigest)
      (initial 4 [zeroDigest, zeroDigest] 2)
        [.message 0 [1] true, .callback, .message 1 [1] true, .callback] = .ok s ∧
      s.async.taken = [⟨0, 0, .unchoke⟩, ⟨1, 1, .unchoke⟩] := ⟨_, rfl, rfl⟩
  refine ⟨s, hrun, htaken, (records_lossless_iff _ _ _ _ _ s hrun).mpr ?_⟩
  refine ⟨fun _ => rfl, fun s₁ h₁ => ⟨fun hstores => hstores.elim, fun s₂ h₂ => ⟨fun _ => ?_,
    fun _ _ => ⟨fun hstores => hstores.elim, fun _ _ => trivial⟩⟩⟩⟩
  obtain rfl := Except.ok.inj h₁
  obtain rfl := Except.ok.inj h₂
  rfl

/-- **Two connections that unchoke before the loop comes round**: the record of the first is lost,
and with it the piece. -/
theorem second_unchoke_overwrites :
    ∃ s, runFrom (step fun _ => zeroDigest)
        (initial 4 [zeroDigest, zeroDigest] 2)
        [.message 0 [1] true, .message 1 [1] true, .callback] = .ok s ∧
      ¬ s.async.Lossless ∧ s.async.due = 0 ∧ 0 ∉ s.session.workQueue := by
  refine ⟨_, rfl, ?_, rfl, by decide⟩
  intro hlossless
  exact absurd (congrArg List.length hlossless.all) (by decide)

/-! ## The idealised session -/

/-- The loop as a session that delivers each record: what is in the slot is what is pending. -/
def toDelivery (s : Loop) : Delivery := ⟨s.session, s.async.slot.toList⟩

/-- A turn as an event of it. -/
def toEvent : Turn → Event
  | .message k msg _ => .message k msg
  | .callback => .callback 0
  | .close k => .close k

/-- The record that is processed next is one that `try_download` can account for. -/
def RegularTurn (s : Loop) : Turn → Prop
  | .callback => ∀ params, s.async.slot = some params → s.session.Regular params
  | _ => True

/-- A turn that overwrites nothing is an event of the session that delivers each record. -/
theorem step_delivers {e : Turn} (h : s.async.Lossless)
    (he : Mailbox.Answered Loop.async Stores s e) (hstep : step sha1 s e = .ok s') :
    Delivery.step sha1 s.toDelivery (toEvent e) = .ok s'.toDelivery := by
  cases step_cases hstep with
  | message hopen hmsg =>
    simp [toDelivery, toEvent, Delivery.step, hopen, hmsg, bind, Except.bind, pure, Except.pure]
  | stored hopen hmsg =>
    have hslot : s.async.slot = none :=
      h.slot_eq_none (he ⟨hopen, (doMessage_stores hmsg).symm⟩)
    simp [toDelivery, toEvent, Delivery.step, hopen, hmsg, hslot, Mailbox.post, bind, Except.bind,
      pure, Except.pure]
  | callback _ hslot htry =>
    simp [toDelivery, toEvent, Delivery.step, hslot, htry, Mailbox.take, bind, Except.bind,
      pure, Except.pure]
  | close hopen hclose =>
    simp [toDelivery, toEvent, Delivery.step, hopen, hclose, bind, Except.bind, pure, Except.pure]
  | shut hshut => simp [toDelivery, toEvent, Delivery.step, hshut]
  | idle hdue => simp [toDelivery, toEvent, Delivery.step, h.slot_eq_none hdue]
  | gone hshut => simp [toDelivery, toEvent, Delivery.step, hshut]

/-- **A run that overwrites no record is a run of the idealised session.** -/
theorem loop_delivers (sha1 : List UInt8 → Digest) {s : Loop} {turns : List Turn}
    (h : s.async.Lossless) (hrun : runFrom (step sha1) s turns = .ok s')
    (halong : Along (step sha1) (fun s e =>
      Mailbox.Answered Loop.async Stores s e ∧ s.RegularTurn e) s turns) :
    Along (Delivery.step sha1) Delivery.RegularStep s.toDelivery (turns.map toEvent) ∧
      runFrom (Delivery.step sha1) s.toDelivery (turns.map toEvent) = .ok s'.toDelivery := by
  have hsim : Along (Delivery.step sha1) Delivery.RegularStep s.toDelivery (turns.map toEvent) ∧
      ∃ t, runFrom (Delivery.step sha1) s.toDelivery (turns.map toEvent) = .ok t ∧
        s'.async.Lossless ∧ t = s'.toDelivery := by
    refine run_simulates (R := fun s t => s.async.Lossless ∧ t = s.toDelivery) toEvent ?_
      ⟨h, rfl⟩ halong hrun
    rintro s e s' _ ⟨hs, rfl⟩ ⟨he, hreg⟩ hstep
    refine ⟨?_, s'.toDelivery, step_delivers hs he hstep,
      (uses_async sha1).lossless_step hs he hstep, rfl⟩
    cases e with
    | callback =>
      intro params hparams
      refine hreg params ?_
      cases hslot : s.async.slot with
      | none => simp [toDelivery, hslot] at hparams
      | some params' => simpa [toDelivery, hslot] using hparams
    | message => trivial
    | close => trivial
  obtain ⟨hreg, t, ht, -, rfl⟩ := hsim
  exact ⟨hreg, ht⟩

/-- **No piece is lost or duplicated by the loop** in a run that overwrites no record and processes
only records that `try_download` can account for. -/
theorem loop_pieceLaw (sha1 : List UInt8 → Digest) (pieceLength : Int) (hashes : List Digest)
    (peers : Nat) (turns : List Turn) (s : Loop)
    (hrun : runFrom (step sha1) (initial pieceLength hashes peers) turns = .ok s)
    (halong : Along (step sha1) (fun s e =>
      Mailbox.Answered Loop.async Stores s e ∧ s.RegularTurn e)
      (initial pieceLength hashes peers) turns) : Delivery.PieceLaw s.toDelivery := by
  obtain ⟨hreg, hdelivery⟩ := loop_delivers sha1 Mailbox.lossless_empty hrun halong
  exact (run_invariant Delivery.accounted_step
    (Delivery.accounted_initial pieceLength hashes peers) hreg hdelivery).pieceLaw

/-! ## Records that stay pending -/

/-- The idealised session `t` is where the loop is; what is in the slot is pending there. -/
structure CoveredBy (s : Loop) (t : Delivery) : Prop where
  session_eq : t.session = s.session
  slot_mem : ∀ params, s.async.slot = some params → params ∈ t.pending

/-- A turn is an event of the idealised session. -/
theorem step_covered {t : Delivery} {e : Turn} (h : s.CoveredBy t)
    (hstep : step sha1 s e = .ok s') :
    ∃ e' t', Delivery.step sha1 t e' = .ok t' ∧ s'.CoveredBy t' := by
  obtain ⟨session, pending⟩ := t
  obtain ⟨rfl, hslot⟩ := h
  -- what cannot happen is a callback for no record
  have hidle : Delivery.step sha1 ⟨s.session, pending⟩ (.callback pending.length) =
      .ok ⟨s.session, pending⟩ := by
    simp [Delivery.step]
  cases step_cases hstep with
  | @message k msg _ session hopen hmsg =>
    refine ⟨.message k msg, ⟨session, pending⟩, ?_, rfl, hslot⟩
    simp [Delivery.step, hopen, hmsg, bind, Except.bind, pure, Except.pure]
  | @stored k msg merged session params hopen hmsg =>
    refine ⟨.message k msg, ⟨session, pending ++ [params]⟩, ?_, rfl, ?_⟩
    · simp [Delivery.step, hopen, hmsg, bind, Except.bind, pure, Except.pure]
    · intro params' hparams
      obtain rfl := Option.some.inj hparams
      exact List.mem_append_right _ List.mem_cons_self
  | @callback params session _ hparams htry =>
    obtain ⟨i, hi⟩ := List.mem_iff_getElem?.mp (hslot params hparams)
    refine ⟨.callback i, ⟨session, pending.eraseIdx i⟩, ?_, rfl, fun _ hnone => ?_⟩
    · simp only [Delivery.step]
      rw [hi]
      exact bind_eq_ok.mpr ⟨session, htry, rfl⟩
    · exact absurd hnone (by simp [Mailbox.take])
  | @close k session hopen hclose =>
    refine ⟨.close k, ⟨session, pending⟩, ?_, rfl, hslot⟩
    simp [Delivery.step, hopen, hclose, bind, Except.bind, pure, Except.pure]
  | shut => exact ⟨_, _, hidle, rfl, hslot⟩
  | idle => exact ⟨_, _, hidle, rfl, hslot⟩
  | gone => exact ⟨_, _, hidle, rfl, hslot⟩

/-- **Every session of the loop is one of the idealised session.** -/
theorem loop_covered (sha1 : List UInt8 → Digest) {pieceLength : Int} {hashes : List Digest}
    {peers : Nat} (h : Reachable (step sha1) (initial pieceLength hashes peers) s) :
    ∃ t, Reachable (Delivery.step sha1) (Delivery.initial pieceLength hashes peers) t ∧
      s.CoveredBy t := by
  refine h.invariant (I := fun s => ∃ t, Reachable (Delivery.step sha1)
    (Delivery.initial pieceLength hashes peers) t ∧ s.CoveredBy t) ?_ ?_
  · rintro s e s' ⟨t, ht, hcov⟩ hstep
    obtain ⟨e', t', ht', hcov'⟩ := step_covered hcov hstep
    exact ⟨t', ht.tail ht', hcov'⟩
  · exact ⟨_, .refl _, rfl, fun _ hslot => absurd hslot (by simp [initial])⟩

end Loop

end CometBt
