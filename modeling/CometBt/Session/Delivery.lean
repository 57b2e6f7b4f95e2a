import CometBt.Session.Outcomes

/-!
# Runs of a session, each record delivered

The session as its connections and the loop drive it, in the idealisation that every
`uv_async_send` is a call of `try_download` of its own, on the record it was sent for, in any
order. Any message may come on a connection that is open.
-/

namespace CometBt

open Lib

/-- The session, and the records sent and not processed yet. -/
structure Delivery where
  session : Session
  pending : List SendParams := []

/-- What happens next. -/
inductive Event where
  /-- `do_message` on a connection. -/
  | message (peer : Nat) (msg : List UInt8)
  /-- `try_download` on the `i`-th pending record. -/
  | callback (i : Nat)
  /-- A read error on a connection: `uv_close` and `on_remote_close`. -/
  | close (peer : Nat)
  deriving Repr

/-- The connection `k` has not been closed. -/
def Session.isOpen (s : Session) (k : Nat) : Bool :=
  match s.peers[k]? with
  | some c => !c.closed
  | none => false

namespace Delivery

/-- One event. What cannot happen changes nothing. -/
def step (sha1 : List UInt8 → Digest) (s : Delivery) : Event → Except Abort Delivery
  | .message k msg =>
    if s.session.isOpen k then do
      let (session, post) ← s.session.doMessage k msg
      return { session, pending := s.pending ++ post.toList }
    else .ok s
  | .callback i =>
    match s.pending[i]? with
    | none => .ok s
    | some params => do
      let session ← s.session.tryDownload sha1 params
      return { session, pending := s.pending.eraseIdx i }
  | .close k =>
    if s.session.isOpen k then do
      let session ← s.session.remoteClose k
      return { s with session }
    else .ok s

/-- The event can happen. -/
def enabled (s : Delivery) : Event → Bool
  | .message k _ => s.session.isOpen k
  | .callback i => s.pending[i]?.isSome
  | .close k => s.session.isOpen k

/-- How an event goes. -/
inductive Stepped (sha1 : List UInt8 → Digest) (s : Delivery) : Event → Delivery → Prop where
  | message {k : Nat} {msg : List UInt8} {c : Peer} {session : Session}
      {post : Option SendParams} : s.session.peers[k]? = some c → c.closed = false →
      Session.Handled s.session k c session post →
      Stepped sha1 s (.message k msg) ⟨session, s.pending ++ post.toList⟩
  | callback {i : Nat} {params : SendParams} {c : Peer} {session : Session} :
      s.pending[i]? = some params → s.session.peers[params.peer]? = some c →
      Session.Tried sha1 s.session params c session →
      Stepped sha1 s (.callback i) ⟨session, s.pending.eraseIdx i⟩
  | close {k : Nat} {c : Peer} {session : Session} : s.session.peers[k]? = some c →
      c.closed = false → Session.Closed s.session k c session →
      Stepped sha1 s (.close k) { s with session }
  | none (e : Event) : s.enabled e = false → Stepped sha1 s e s

theorem isOpen_eq {s : Session} {k : Nat} (h : s.isOpen k = true) :
    ∃ c, s.peers[k]? = some c ∧ c.closed = false := by
  unfold Session.isOpen at h
  split at h
  · rename_i c hc
    exact ⟨c, hc, by simpa using h⟩
  · exact absurd h (by simp)

theorem isOpen_of {s : Session} {k : Nat} {c : Peer} (hc : s.peers[k]? = some c)
    (hopen : c.closed = false) : s.isOpen k = true := by
  unfold Session.isOpen
  simp only [hc, hopen]
  rfl

/-- A message, by its bytes. -/
theorem message_cases {sha1 : List UInt8 → Digest} {s s' : Delivery} {k : Nat} {msg : List UInt8}
    (h : step sha1 s (.message k msg) = .ok s') :
    (∃ c session post, s.session.peers[k]? = some c ∧ c.closed = false ∧
      Session.Messaged s.session k c msg session post ∧ s' = ⟨session, s.pending ++ post.toList⟩) ∨
      s.session.isOpen k = false ∧ s' = s := by
  simp only [step] at h
  split_ifs at h with hopen
  · obtain ⟨⟨session, post⟩, hmsg, h⟩ := bind_eq_ok.mp h
    obtain ⟨c, hc, hc'⟩ := isOpen_eq hopen
    exact .inl ⟨c, session, post, hc, hc', Session.doMessage_messaged hc hmsg,
      (Except.ok.inj h).symm⟩
  · exact .inr ⟨Bool.eq_false_iff.mpr hopen, (Except.ok.inj h).symm⟩

/-- **An event**, when it does not stop the process. -/
theorem step_cases {sha1 : List UInt8 → Digest} {s s' : Delivery} {e : Event}
    (h : step sha1 s e = .ok s') : Stepped sha1 s e s' := by
  cases e with
  | message k msg =>
    simp only [step] at h
    split_ifs at h with hopen
    · obtain ⟨⟨session, post⟩, hmsg, h⟩ := bind_eq_ok.mp h
      obtain rfl := Except.ok.inj h
      obtain ⟨c, hc, hc'⟩ := isOpen_eq hopen
      exact .message hc hc' (Session.doMessage_cases hc hmsg)
    · obtain rfl := Except.ok.inj h
      exact .none _ (Bool.eq_false_iff.mpr hopen)
  | callback i =>
    simp only [step] at h
    split at h
    · rename_i hnone
      obtain rfl := Except.ok.inj h
      exact .none _ (congrArg Option.isSome hnone)
    · rename_i params hparams
      obtain ⟨session, htry, h⟩ := bind_eq_ok.mp h
      obtain rfl := Except.ok.inj h
      obtain ⟨c, hc, htried⟩ := Session.tryDownload_cases htry
      exact .callback hparams hc htried
  | close k =>
    simp only [step] at h
    split_ifs at h with hopen
    · obtain ⟨session, hclose, h⟩ := bind_eq_ok.mp h
      obtain rfl := Except.ok.inj h
      obtain ⟨c, hc, hc'⟩ := isOpen_eq hopen
      exact .close hc hc' (Session.remoteClose_cases hc hclose)
    · obtain rfl := Except.ok.inj h
      exact .none _ (Bool.eq_false_iff.mpr hopen)

/-! ## What an event keeps

One lemma for each kind of event, for what holds before it: it holds afterwards if and only if it
does so in the case that the event can happen. -/

variable {sha1 : List UInt8 → Digest} {s s' : Delivery} {I : Delivery → Prop} {k n : Nat}

theorem message_iff {msg : List UInt8} {P : Prop} (h : I s)
    (hstep : step sha1 s (.message k msg) = .ok s')
    (hI : ∀ c session post, s.session.peers[k]? = some c → c.closed = false →
      Session.Messaged s.session k c msg session post →
        (I ⟨session, s.pending ++ post.toList⟩ ↔ P)) :
    I s' ↔ (s.session.isOpen k = true → P) := by
  rcases message_cases hstep with ⟨c, session, post, hc, hclosed, hmsg, rfl⟩ | ⟨hshut, rfl⟩
  · have hopen := isOpen_of hc hclosed
    exact (hI c session post hc hclosed hmsg).trans ⟨fun hP _ => hP, fun hP => hP hopen⟩
  · exact iff_of_true h fun hopen => absurd (hshut.symm.trans hopen) (by decide)

theorem callback_iff {P : SendParams → Peer → Prop} (h : I s)
    (hstep : step sha1 s (.callback n) = .ok s')
    (hI : ∀ params c session, s.pending[n]? = some params →
      s.session.peers[params.peer]? = some c → Session.Tried sha1 s.session params c session →
        (I ⟨session, s.pending.eraseIdx n⟩ ↔ P params c)) :
    I s' ↔ ∀ params c, s.pending[n]? = some params → s.session.peers[params.peer]? = some c →
      P params c := by
  cases step_cases hstep with
  | callback hparams hc htried =>
    rw [hI _ _ _ hparams hc htried]
    constructor
    · intro hP params' c' hparams' hc'
      obtain rfl := Option.some.inj (hparams.symm.trans hparams')
      obtain rfl := Option.some.inj (hc.symm.trans hc')
      exact hP
    · intro hall
      exact hall _ _ hparams hc
  | none _ hnone =>
    refine iff_of_true h fun params _ hparams => ?_
    exact absurd hnone (by simp [enabled, hparams])

theorem close_iff {P : Peer → Prop} (h : I s) (hstep : step sha1 s (.close k) = .ok s')
    (hI : ∀ c session, s.session.peers[k]? = some c → c.closed = false →
      Session.Closed s.session k c session → (I { s with session } ↔ P c)) :
    I s' ↔ ∀ c, s.session.peers[k]? = some c → c.closed = false → P c := by
  cases step_cases hstep with
  | close hc hclosed hclose =>
    rw [hI _ _ hc hclosed hclose]
    constructor
    · intro hP c' hc' _
      obtain rfl := Option.some.inj (hc.symm.trans hc')
      exact hP
    · intro hall
      exact hall _ hc hclosed
  | none _ hnone =>
    refine iff_of_true h fun c hc hclosed => ?_
    exact absurd (hnone.symm.trans (isOpen_of hc hclosed)) (by decide)

end Delivery

end CometBt
