import CometBt.Lib.Runs
import CometBt.Receive.Connection

/-!
# What a read event does besides the parser

`on_receive` hands the messages to `do_message`, one after the other, and nothing else in
`on_receive_internal` touches the world or `m_choked`. So where `do_message` is a step of some
system, as seen through a view of the connection (`Acts`), a read event is a run of that system, on
the messages that it completes (`Acts.read`). The system stops exactly when a handler stops the
process.
-/

namespace CometBt.Conn

open Lib

variable {W E τ : Type} {c c' c'' : Conn W} {H : Handlers W E}

/-! ## Around `do_message` -/

/-- `c'` is `c` with other things changed than handlers change. -/
structure Beside (c c' : Conn W) : Prop where
  world : c'.world = c.world
  choked : c'.choked = c.choked
  messages : c'.history.messages = c.history.messages

theorem Beside.refl (c : Conn W) : c.Beside c := ⟨rfl, rfl, rfl⟩

theorem Beside.trans (h : c.Beside c') (h' : c'.Beside c'') : c.Beside c'' :=
  ⟨h'.world.trans h.world, h'.choked.trans h.choked, h'.messages.trans h.messages⟩

/-- The outcome is that of `k`, or comes before it. -/
inductive Leads (k : Conn W → Outcome W E) (c : Conn W) : Outcome W E → Prop where
  | returns {c' : Conn W} : c.Beside c' → Leads k c (.ok c')
  | aborts {c' : Conn W} {a : Abort} : c.Beside c' → Leads k c (.error (.abort a, c'))
  | goes {c' : Conn W} : c.Beside c' → Leads k c (k c')

namespace Leads

variable {k k' : Conn W → Outcome W E} {o : Outcome W E}

theorem behind (hc : c.Beside c') (h : Leads k c' o) : Leads k c o := by
  cases h with
  | returns hc' => exact .returns (hc.trans hc')
  | aborts hc' => exact .aborts (hc.trans hc')
  | goes hc' => exact .goes (hc.trans hc')

theorem bind (h : Leads k c o) (hk : ∀ c', Leads k' c' (k c')) : Leads k' c o := by
  cases h with
  | returns hc => exact .returns hc
  | aborts hc => exact .aborts hc
  | goes hc => exact (hk _).behind hc

theorem ensure {fn : Fn} {p : Prop} [Decidable p] (hc : c.Beside c') (h : Leads k c o) :
    Leads k c (c'.ensure fn p o) := by
  unfold Conn.ensure
  split
  · exact h
  · exact .aborts hc

theorem onBuffer (hc : c.Beside c') (x : Except Abort RecvBuffer)
    (h : ∀ c'', c.Beside c'' → Leads k' c (k c'')) : Leads k' c (c'.onBuffer x k) := by
  unfold Conn.onBuffer
  cases x with
  | error a => exact .aborts hc
  | ok b => exact h _ (hc.trans ⟨rfl, rfl, rfl⟩)

end Leads

/-! ### One lemma a state -/

theorem readProtocolId_leads (k : Conn W → Outcome W E) (c : Conn W) :
    Leads k c (c.readProtocolId k) := by
  have hc := Beside.refl c
  unfold readProtocolId
  split_ifs
  · exact .returns hc
  · refine .ensure hc (.ensure hc ?_)
    simp only
    split_ifs
    · exact .returns ⟨rfl, rfl, rfl⟩
    · refine .onBuffer ?_ _ fun _ => .goes
      exact ⟨rfl, rfl, rfl⟩
  · exact .goes hc

theorem readInfoHash_leads (k : Conn W → Outcome W E) (c : Conn W) :
    Leads k c (c.readInfoHash k) := by
  have hc := Beside.refl c
  unfold readInfoHash
  split_ifs
  · exact .ensure hc (.returns hc)
  · refine .ensure hc (.ensure hc ?_)
    simp only
    split_ifs
    · exact .returns ⟨rfl, rfl, rfl⟩
    · refine .onBuffer ?_ _ fun _ => .goes
      exact ⟨rfl, rfl, rfl⟩
  · exact .goes hc

theorem readPeerId_leads (k : Conn W → Outcome W E) (c : Conn W) :
    Leads k c (c.readPeerId k) := by
  have hc := Beside.refl c
  unfold readPeerId
  split_ifs
  · exact .ensure hc (.returns hc)
  · exact .ensure hc (.ensure hc (.aborts hc))
  · exact .ensure hc (.ensure hc (.returns ⟨rfl, rfl, rfl⟩))
  · refine .ensure hc (.ensure hc (.onBuffer ?_ _ fun _ => .goes))
    exact ⟨rfl, rfl, rfl⟩
  · exact .goes hc

theorem readMessageSize_leads (k : Conn W → Outcome W E) (c : Conn W) :
    Leads k c (c.readMessageSize k) := by
  have hc := Beside.refl c
  unfold readMessageSize
  split_ifs
  · exact .ensure hc (.returns hc)
  · refine .ensure hc ?_
    simp only
    split_ifs
    · exact .returns ⟨rfl, rfl, rfl⟩
    · refine .onBuffer ?_ _ fun _ hc' => .goes ?_
      · exact ⟨rfl, rfl, rfl⟩
      · exact ⟨hc'.world, hc'.choked, hc'.messages⟩
    · exact .goes ⟨rfl, rfl, rfl⟩
  · exact .goes hc

theorem readMessage_leads (H : Handlers W E) (c : Conn W) :
    Leads (doMessage H) c (c.readMessage H) := by
  unfold readMessage
  split_ifs
  · exact .returns (.refl c)
  · exact .goes (.refl c)
  · exact .returns (.refl c)

/-- **`on_receive`** calls `do_message` or does nothing that handlers do. -/
theorem onReceive_leads (H : Handlers W E) (c : Conn W) :
    Leads (doMessage H) c (c.onReceive H) :=
  (readProtocolId_leads _ c).bind fun _ => (readInfoHash_leads _ _).bind fun _ =>
    (readPeerId_leads _ _).bind fun _ => (readMessageSize_leads _ _).bind fun _ =>
      readMessage_leads H _

/-- `setup_receive`. -/
theorem setupReceive_leads (c : Conn W) : Leads .ok c (c.setupReceive : Outcome W E) := by
  have hoffer : ∀ c', c.Beside c' → Leads .ok c (c'.offerChunk : Outcome W E) := fun c' hc => by
    unfold offerChunk
    split
    · exact .aborts hc
    · exact .ensure (hc.trans ⟨rfl, rfl, rfl⟩) (.goes (hc.trans ⟨rfl, rfl, rfl⟩))
  unfold setupReceive
  refine .onBuffer (.refl c) _ fun c' hc => ?_
  unfold growTwice
  split_ifs
  · exact .onBuffer hc _ fun _ hc' => .onBuffer hc' _ hoffer
  · exact hoffer c' hc

/-! ## Handlers -/

/-- What the handler of the current message does: `m_choked` and the world after it. -/
def effect (H : Handlers W E) (b : RecvBuffer) (choked : Bool) (w : W) : Except E (Bool × W) :=
  if b.get.head? = some MessageId.bitfield.toByte then (H.bitfield b choked w).map (choked, ·)
  else if b.get.head? = some MessageId.unchoke.toByte then (H.unchoke w).map (false, ·)
  else if b.get.head? = some MessageId.choke.toByte then .ok (true, w)
  else if b.get.head? = some MessageId.piece.toByte then (H.piece b w).map (choked, ·)
  else .ok (choked, w)

/-- The message has been recorded, and the handler has done `x`. -/
def Handles (c : Conn W) (x : Except E (Bool × W)) (o : Outcome W E) : Prop :=
  o.conn.history.messages = c.history.messages ∧
    match o with
    | .ok c' => x = .ok (c'.choked, c'.world)
    | .error (.handler e, _) => x = .error e
    | .error (.abort _, _) => True

theorem nextMessage_handles (c : Conn W) :
    Handles c (.ok (c.choked, c.world)) (c.nextMessage : Outcome W E) := by
  unfold nextMessage onBuffer
  split
  · exact ⟨rfl, trivial⟩
  · exact ⟨rfl, rfl⟩

theorem handled_handles {x : Except E W} {k : Conn W → Outcome W E} {choked : Bool}
    (hk : ∀ w, Handles c (.ok (choked, w)) (k { c with world := w })) :
    Handles c (x.map (choked, ·)) (c.handled x k) := by
  unfold handled
  cases x with
  | error e => exact ⟨rfl, rfl⟩
  | ok w => exact hk w

/-- **`do_message`** records the message and does what its handler does. -/
theorem doMessage_handles (H : Handlers W E) (c : Conn W) :
    (c.doMessage H).conn.history.messages = c.history.messages ++ [c.recvBuffer.get] ∧
      (c.recvBuffer.get = [] ∧ c.doMessage H = .error (.abort .outOfRange, (c.doMessage H).conn) ∨
        c.recvBuffer.get ≠ [] ∧ match c.doMessage H with
          | .ok c' => effect H c.recvBuffer c.choked c.world = .ok (c'.choked, c'.world)
          | .error (.handler e, _) => effect H c.recvBuffer c.choked c.world = .error e
          | .error (.abort _, _) => True) := by
  unfold doMessage
  simp only
  split
  · exact ⟨rfl, .inl ⟨‹_›, rfl⟩⟩
  rename_i msgId rest hget
  generalize hc₀ : ({ c with history := { c.history with
    messages := c.history.messages ++ [c.recvBuffer.get] } } : Conn W) = c₀
  have hdispatch : Handles c₀ (effect H c.recvBuffer c.choked c.world) (c₀.dispatch H msgId) := by
    subst hc₀
    unfold dispatch effect
    rw [hget]
    simp only [List.head?_cons, Option.some.injEq]
    split_ifs with hbit hun hch hpiece
    · refine handled_handles fun w => ?_
      simp only
      split_ifs
      · exact nextMessage_handles _
      · exact ⟨rfl, rfl⟩
    · exact handled_handles fun w => nextMessage_handles _
    · exact nextMessage_handles _
    · exact handled_handles fun w => nextMessage_handles _
    · exact nextMessage_handles _
  have hmess : c₀.history.messages = c.history.messages ++ [c.recvBuffer.get] := by rw [← hc₀]
  exact ⟨hdispatch.1.trans hmess, .inr ⟨by simp [hget], hdispatch.2⟩⟩

/-! ## Handlers that are steps of a system -/

/-- The handlers are steps of a system, on what is seen of the connection, where `I` holds. -/
structure Acts (H : Handlers W E) (view : Bool → W → τ) (step : τ → List UInt8 → Except E τ)
    (I : τ → Prop) : Prop where
  handles : ∀ {b choked w}, I (view choked w) → b.get ≠ [] →
    step (view choked w) b.get = (effect H b choked w).map fun r => view r.1 r.2
  keeps : ∀ {t msg t'}, I t → step t msg = .ok t' → I t'

/-- What is seen of the connection. -/
def seen (view : Bool → W → τ) (c : Conn W) : τ := view c.choked c.world

theorem Beside.seen_eq {view : Bool → W → τ} (h : c.Beside c') : c'.seen view = c.seen view := by
  unfold seen
  rw [h.choked, h.world]

/-- From `c` on, the messages since have taken the system to what is seen now. -/
def Performed (view : Bool → W → τ) (step : τ → List UInt8 → Except E τ) (I : τ → Prop)
    (c : Conn W) (o : Outcome W E) : Prop :=
  ∃ msgs, o.conn.history.messages = c.history.messages ++ msgs ∧
    match o with
    | .ok c' => runFrom step (c.seen view) msgs = .ok (c'.seen view) ∧ I (c'.seen view)
    | .error (.handler e, _) => runFrom step (c.seen view) msgs = .error e
    | .error (.abort _, _) => True

variable {view : Bool → W → τ} {step : τ → List UInt8 → Except E τ} {I : τ → Prop}

/-- Nothing has happened. -/
theorem Performed.none (hI : I (c.seen view)) (hc : c.Beside c') :
    Performed view step I c (.ok c') :=
  ⟨[], hc.messages.trans (List.append_nil _).symm, congrArg Except.ok hc.seen_eq.symm,
    hc.seen_eq ▸ hI⟩

theorem Performed.abort {a : Abort} (hc : c.Beside c') :
    Performed view step I c (.error (.abort a, c')) :=
  ⟨[], hc.messages.trans (List.append_nil _).symm, trivial⟩

/-- One thing after the other. -/
theorem Performed.trans {o : Outcome W E} (h : Performed view step I c (.ok c'))
    (ho : I (c'.seen view) → Performed view step I c' o) : Performed view step I c o := by
  obtain ⟨msgs, hmess, hrun, hI⟩ := h
  obtain ⟨msgs', hmess', hrun'⟩ := ho hI
  refine ⟨msgs ++ msgs', ?_, ?_⟩
  · rw [hmess', show c'.history.messages = _ from hmess, List.append_assoc]
  · match o with
    | .ok c'' => exact ⟨runFrom_append hrun hrun'.1, hrun'.2⟩
    | .error (.handler e, c'') => exact (runFrom_behind hrun msgs').trans hrun'
    | .error (.abort _, _) => trivial

theorem Performed.leads {k : Conn W → Outcome W E} {o : Outcome W E} (hI : I (c.seen view))
    (ho : Leads k c o) (hk : ∀ c', I (c'.seen view) → Performed view step I c' (k c')) :
    Performed view step I c o := by
  cases ho with
  | returns hc => exact .none hI hc
  | aborts hc => exact .abort hc
  | goes hc => exact (Performed.none hI hc).trans (hk _)

namespace Acts

/-- `do_message`. -/
theorem doMessage (h : Acts H view step I) (c : Conn W) (hI : I (c.seen view)) :
    Performed view step I c (c.doMessage H) := by
  obtain ⟨hmess, ⟨-, habort⟩ | ⟨hne, hdid⟩⟩ := doMessage_handles H c
  · exact habort ▸ ⟨_, habort ▸ hmess, trivial⟩
  have hstep := h.handles hI hne
  refine ⟨[c.recvBuffer.get], hmess, ?_⟩
  generalize c.doMessage H = o at hdid
  match o with
  | .ok c' =>
    rw [hdid] at hstep
    exact ⟨runFrom_cons.mpr ⟨_, hstep, rfl⟩, h.keeps hI hstep⟩
  | .error (.handler e, c') =>
    rw [hdid] at hstep
    exact bind_eq_error.mpr (.inl hstep)
  | .error (.abort _, _) => trivial

/-- The loop of `on_receive_internal`. -/
theorem receiveLoop (h : Acts H view step I) (c : Conn W) (total : Int) (hI : I (c.seen view)) :
    Performed view step I c (receiveLoop H c total) := by
  have hcall : ∀ (c : Conn W) (b : RecvBuffer), I (c.seen view) →
      Performed view step I c (onReceive H { c with recvBuffer := b }) := fun c b hI => by
    have hb : c.Beside { c with recvBuffer := b } := ⟨rfl, rfl, rfl⟩
    exact .leads hI ((onReceive_leads H _).behind hb) h.doMessage
  induction c, total using receiveLoop.induct H with
  | case1 c total a hadv =>
    rw [Conn.receiveLoop, hadv]
    exact .abort (.refl c)
  | case2 c total b passed hadv s hrec =>
    rw [Conn.receiveLoop, hadv]
    simp only [hrec]
    exact hrec ▸ hcall c b hI
  | case3 c total b passed hadv c' hrec hgo ih =>
    rw [Conn.receiveLoop, hadv]
    simp only [hrec]
    rw [dif_pos hgo]
    exact Performed.trans (hrec ▸ hcall c b hI) ih
  | case4 c total b passed hadv c' hrec hend =>
    rw [Conn.receiveLoop, hadv]
    simp only [hrec]
    rw [dif_neg hend]
    exact hrec ▸ hcall c b hI

/-- **A read event** is a run of the system on the messages that it completes. -/
theorem read (h : Acts H view step I) (c : Conn W) (bs : List UInt8) (hI : I (c.seen view)) :
    Performed view step I c (c.read H bs) := by
  unfold Conn.read
  split_ifs
  · exact .none hI (.refl c)
  · have hdeliver : c.Beside (c.deliver bs) := ⟨rfl, rfl, rfl⟩
    refine (Performed.none hI hdeliver).trans fun hI => ?_
    unfold onReceiveInternal
    refine .leads hI (.ensure (.refl _) (.onBuffer (.refl _) _ fun _ => .goes)) fun c hI => ?_
    have hloop := h.receiveLoop c bs.length hI
    generalize Conn.receiveLoop H c bs.length = o at hloop
    cases o with
    | error s => exact hloop
    | ok c' =>
      refine hloop.trans fun hI => ?_
      simp only
      unfold finish
      split_ifs
      · exact .none hI ⟨rfl, rfl, rfl⟩
      · exact .leads hI (setupReceive_leads c') fun _ hI => .none hI (.refl _)

end Acts

end CometBt.Conn
