import CometBt.Receive.Setup

/-!
# No byte of the stream is lost, repeated or moved

The invariant of the receive path, for every stream and every split, whatever the handlers do.
`Reaches H info p c` are the states of a connection from `connect` on, inside
`on_receive_internal` too: `p` says where in it the connection is.

A call of `on_receive` only ever consumes from the front of the window (`Keeps`); the only asserts
that can fail there are its own. Such facts about a call are instances of one rule
(`Guides.onReceive`). `receive_invariant` is the run.
-/

namespace CometBt.Conn

variable {W E : Type}

/-! ## What `on_receive` may do -/

/-- `c'` is `c` with some of the window consumed. -/
structure Keeps (c c' : Conn W) : Prop where
  wf : c'.recvBuffer.Wf
  unread : c'.recvBuffer.unread = c.recvBuffer.unread
  window : c'.recvBuffer.window <:+ c.recvBuffer.window
  received : c'.history.received = c.history.received
  closed : c'.closed = c.closed

/-- Only asserts of `on_receive` itself fail. -/
def OwnAssert : Stop E → Prop
  | .abort (.assertion fn) => fn = .onReceive
  | _ => True

/-- The outcome keeps `c`, or one of `on_receive`'s own asserts or a handler stops the process. -/
def Good (c : Conn W) : Outcome W E → Prop
  | .ok c' => c.Keeps c'
  | .error (s, _) => OwnAssert s

/-- The messages that a handler is called for. -/
def HasHandler (msg : List UInt8) : Prop :=
  msg.head? = some MessageId.bitfield.toByte ∨ msg.head? = some MessageId.unchoke.toByte ∨
    msg.head? = some MessageId.piece.toByte

/-- What there is to know of `P` and `Q` to see that a call of `on_receive` leads from `P` to `Q`:
one field for each thing that it does to a connection. -/
structure Guides (P : Conn W → Prop) (Q : Outcome W E → Prop) : Prop where
  returns : ∀ {c}, P c → Q (.ok c)
  rejects : ∀ {c}, P c → Q (.ok { c with disconnect := true })
  aborts : ∀ {c a}, P c → OwnAssert (.abort a : Stop E) → Q (.error (.abort a, c))
  handler : ∀ {c e msg}, P c → msg ∈ c.history.messages → HasHandler msg →
    Q (.error (.handler e, c))
  update : ∀ {c c'}, P c → c'.recvBuffer = c.recvBuffer → c'.disconnect = c.disconnect →
    c'.closed = c.closed → c'.history.received = c.history.received → P c'
  reset : ∀ {c n k}, P c → c.recvBuffer.messageSize ≤ c.recvBuffer.recvPos → 0 < n → n ≤ maxInt →
    (∀ c', P c' → Q (k c')) → Q (c.onBuffer (c.recvBuffer.reset n) k)

theorem finished_le {b : RecvBuffer} (h : ¬ b.isMessageFinished = false) :
    b.messageSize ≤ b.recvPos := by
  unfold RecvBuffer.isMessageFinished at h
  simpa using h

namespace Guides

variable {P : Conn W → Prop} {Q : Outcome W E → Prop} {c : Conn W}

theorem ensure (r : Guides P Q) {p : Prop} [Decidable p] {o : Outcome W E} (hc : P c)
    (ho : p → Q o) : Q (c.ensure .onReceive p o) := by
  unfold Conn.ensure
  split
  · exact ho ‹_›
  · exact r.aborts hc rfl

theorem handled (r : Guides P Q) {x : Except E W} {k : Conn W → Outcome W E} {msg : List UInt8}
    (hc : P c) (hmsg : msg ∈ c.history.messages) (hhas : HasHandler msg)
    (hk : ∀ c', P c' → c'.recvBuffer = c.recvBuffer → Q (k c')) : Q (c.handled x k) := by
  unfold Conn.handled
  cases x with
  | error e => exact r.handler hc hmsg hhas
  | ok w => exact hk _ (r.update hc rfl rfl rfl rfl) rfl

/-! ### One lemma a state -/

theorem nextMessage (r : Guides P Q) (hc : P c)
    (hfin : c.recvBuffer.messageSize ≤ c.recvBuffer.recvPos) : Q (c.nextMessage : Outcome W E) :=
  r.reset (show P { c with state := .readMessageSize } from r.update hc rfl rfl rfl rfl) hfin
    (by decide) (by decide) fun _ hc' => r.returns hc'

theorem dispatch (r : Guides P Q) (H : Handlers W E) {msgId : UInt8} {msg : List UInt8} (hc : P c)
    (hfin : c.recvBuffer.messageSize ≤ c.recvBuffer.recvPos) (hmsg : msg ∈ c.history.messages)
    (hhead : msg.head? = some msgId) : Q (c.dispatch H msgId) := by
  have hnext : ∀ c' : Conn W, P c' → c'.recvBuffer = c.recvBuffer →
      Q (c'.nextMessage : Outcome W E) := fun c' hc' hb =>
    r.nextMessage hc' (by rw [hb]; exact hfin)
  have hupd : ∀ {c' : Conn W} (b : Bool), P c' → P { c' with choked := b } :=
    fun _ hc' => r.update hc' rfl rfl rfl rfl
  unfold Conn.dispatch
  split_ifs with hbit hun _ hpiece
  · refine r.handled hc hmsg (.inl (hbit ▸ hhead)) fun c' hc' hb => ?_
    split
    · exact hnext c' hc' hb
    · exact r.returns hc'
  · exact r.handled hc hmsg (.inr (.inl (hun ▸ hhead))) fun c' hc' hb => hnext _ (hupd false hc') hb
  · exact hnext _ (hupd true hc) rfl
  · exact r.handled hc hmsg (.inr (.inr (hpiece ▸ hhead))) hnext
  · exact hnext c hc rfl

theorem readMessage (r : Guides P Q) (H : Handlers W E) (hc : P c) : Q (c.readMessage H) := by
  unfold Conn.readMessage
  split
  · split
    · exact r.returns hc
    · rename_i hfin
      have hc' : P { c with
          history := { c.history with messages := c.history.messages ++ [c.recvBuffer.get] } } :=
        r.update hc rfl rfl rfl rfl
      unfold doMessage
      simp only
      split
      · exact r.aborts hc' trivial
      · rename_i hget
        exact r.dispatch H hc' (finished_le hfin) List.mem_concat_self (by rw [hget]; rfl)
  · exact r.returns hc

theorem readMessageSize (r : Guides P Q) {k : Conn W → Outcome W E} (hc : P c)
    (hk : ∀ c', P c' → Q (k c')) : Q (c.readMessageSize k) := by
  unfold Conn.readMessageSize
  split
  · refine r.ensure hc fun _ => ?_
    split
    · exact r.returns hc
    · rename_i hfin
      simp only
      have hc' : P { c with
          history := { c.history with
            prefixes := c.history.prefixes ++
              [(c.startOffset, deserializeInt c.recvBuffer.get)] } } :=
        r.update hc rfl rfl rfl rfl
      split
      · exact r.returns hc'
      split
      · refine r.reset hc' (finished_le hfin) ‹_› ?_ fun c'' hc'' =>
          hk _ (r.update hc'' rfl rfl rfl rfl)
        have hlt := deserializeInt_lt c.recvBuffer.get
        unfold maxInt
        omega
      · exact hk _ hc'
  · exact hk _ hc

theorem readPeerId (r : Guides P Q) {k : Conn W → Outcome W E} (hc : P c)
    (hk : ∀ c', P c' → Q (k c')) : Q (c.readPeerId k) := by
  unfold Conn.readPeerId
  split
  · refine r.ensure hc fun _ => ?_
    split
    · exact r.returns hc
    · rename_i hfin
      refine r.ensure hc fun _ => ?_
      split
      · exact r.aborts hc trivial
      split
      · exact r.rejects hc
      · exact r.reset (show P { c with active := true, state := .readMessageSize } from
          r.update hc rfl rfl rfl rfl) (finished_le hfin) (by decide) (by decide) hk
  · exact hk _ hc

theorem readInfoHash (r : Guides P Q) {k : Conn W → Outcome W E} (hc : P c)
    (hk : ∀ c', P c' → Q (k c')) : Q (c.readInfoHash k) := by
  unfold Conn.readInfoHash
  split
  · refine r.ensure hc fun _ => ?_
    split
    · exact r.returns hc
    · rename_i hfin
      refine r.ensure hc fun _ => ?_
      simp only
      split
      · exact r.rejects hc
      · exact r.reset (show P { c with state := .readPeerId } from r.update hc rfl rfl rfl rfl)
          (finished_le hfin) (by decide) (by decide) hk
  · exact hk _ hc

theorem readProtocolId (r : Guides P Q) {k : Conn W → Outcome W E} (hc : P c)
    (hk : ∀ c', P c' → Q (k c')) : Q (c.readProtocolId k) := by
  unfold Conn.readProtocolId
  split
  · split
    · exact r.returns hc
    · rename_i hfin
      refine r.ensure hc fun _ => r.ensure hc fun _ => ?_
      simp only
      split
      · exact r.rejects hc
      · exact r.reset (show P { c with state := .readInfoHash } from r.update hc rfl rfl rfl rfl)
          (finished_le hfin) (by decide) (by decide) hk
  · exact hk _ hc

/-- **The rule of `on_receive`.** -/
theorem onReceive (r : Guides P Q) (H : Handlers W E) (hc : P c) : Q (c.onReceive H) :=
  r.readProtocolId hc fun _ h₁ => r.readInfoHash h₁ fun _ h₂ =>
    r.readPeerId h₂ fun _ h₃ => r.readMessageSize h₃ fun _ h₄ => r.readMessage H h₄

/-- **The rule of the loop**, for what `advance_pos` keeps and a call of `on_receive` leads back
to. -/
theorem receiveLoop (r : Guides P Q) (H : Handlers W E)
    (hadvance : ∀ {c b total passed}, P c → c.recvBuffer.advancePos total = .ok (b, passed) →
      P { c with recvBuffer := b })
    (hstop : ∀ {c a}, P c → Q (.error (.abort a, c))) (hagain : ∀ {c}, Q (.ok c) → P c)
    {total : Int} (hc : P c) : Q (receiveLoop H c total) := by
  induction c, total using receiveLoop.induct H with
  | case1 c total a hadv =>
    rw [Conn.receiveLoop, hadv]
    exact hstop hc
  | case2 c total b passed hadv s hrec =>
    rw [Conn.receiveLoop, hadv]
    simp only [hrec]
    exact hrec ▸ r.onReceive H (hadvance hc hadv)
  | case3 c total b passed hadv c' hrec hgo ih =>
    have hcall := r.onReceive H (hadvance hc hadv)
    rw [hrec] at hcall
    rw [Conn.receiveLoop, hadv]
    simp only [hrec]
    rw [dif_pos hgo]
    exact ih (hagain hcall)
  | case4 c total b passed hadv c' hrec hend =>
    rw [Conn.receiveLoop, hadv]
    simp only [hrec]
    rw [dif_neg hend]
    exact hrec ▸ r.onReceive H (hadvance hc hadv)

end Guides

theorem Keeps.refl {c : Conn W} (h : c.recvBuffer.Wf) : c.Keeps c :=
  ⟨h, rfl, List.suffix_refl _, rfl, rfl⟩

theorem guides_keeps (c₀ : Conn W) : Guides (E := E) c₀.Keeps (Good c₀) where
  returns hc := hc
  rejects hc := ⟨hc.wf, hc.unread, hc.window, hc.received, hc.closed⟩
  aborts _ hs := hs
  handler _ _ _ := trivial
  update := by
    intro c c' hc hb _ hclosed hrec
    refine ⟨by rw [hb]; exact hc.wf, by rw [hb]; exact hc.unread, by rw [hb]; exact hc.window,
      hrec.trans hc.received, hclosed.trans hc.closed⟩
  reset := by
    intro c n k hc hfin h0 hn hk
    obtain ⟨b', hreset, hwf, hwin, hpos, -, -⟩ := hc.wf.reset_spec hfin h0 hn
    unfold onBuffer
    rw [hreset]
    refine hk _ ⟨hwf, ?_, ?_, hc.received, hc.closed⟩
    · have hmsg := hc.wf.message_pos
      have hle := hc.wf.le_end
      have hstart := hc.wf.start_nonneg
      have hlen := hc.wf.window_length
      rw [← hc.unread, hwf.unread_eq, hc.wf.unread_eq, hwin, hpos, List.length_drop]
      omega
    · exact (hwin ▸ List.drop_suffix _ _).trans hc.window

/-- **`on_receive` only consumes from the front of the window**, and only its own asserts can
fail. -/
theorem onReceive_good (H : Handlers W E) {c : Conn W} (h : c.recvBuffer.Wf) :
    Good c (c.onReceive H) :=
  (guides_keeps c).onReceive H (.refl h)

/-! ## Runs -/

/-- Where a connection is in `on_receive_internal`. -/
inductive Point where
  /-- Outside, waiting for a read event. -/
  | idle
  /-- About to run the body of the loop with `total_bytes = total`. -/
  | loop (total : Int)
  /-- At the loop's condition, with `passed_bytes = passed`. -/
  | tail (total passed : Int)
  /-- `uv_close` has been called. -/
  | closed

/-- The states that a connection to the peer `info` runs through. Between read events other
callbacks may change the world, and `try_download` may call `setup_receive`. -/
inductive Reaches (H : Handlers W E) (info : PeerInfo) : Point → Conn W → Prop where
  | connect {w : W} {sent : List UInt8} {c : Conn W} :
      connect info w = .ok (sent, c) → Reaches H info .idle c
  | read {c : Conn W} {bs : List UInt8} {b : RecvBuffer} : Reaches H info .idle c →
      (bs.length : Int) ≤ c.chunkSize → (c.deliver bs).recvBuffer.received bs.length = .ok b →
      Reaches H info (.loop bs.length) { c.deliver bs with recvBuffer := b }
  | pass {c c' : Conn W} {b : RecvBuffer} {total passed : Int} : Reaches H info (.loop total) c →
      c.recvBuffer.advancePos total = .ok (b, passed) →
      onReceive H { c with recvBuffer := b } = .ok c' →
      Reaches H info (.tail (total - passed) passed) c'
  | again {c : Conn W} {total passed : Int} : Reaches H info (.tail total passed) c → 0 < total →
      0 < passed → Reaches H info (.loop total) c
  | close {c : Conn W} {total passed : Int} : Reaches H info (.tail total passed) c →
      ¬ (0 < total ∧ 0 < passed) → c.disconnect = true →
      Reaches H info .closed { c with closed := true }
  | setup {c c' : Conn W} {total passed : Int} : Reaches H info (.tail total passed) c →
      ¬ (0 < total ∧ 0 < passed) → c.disconnect = false →
      (c.setupReceive : Outcome W E) = .ok c' → Reaches H info .idle c'
  | world {c : Conn W} (w : W) : Reaches H info .idle c → Reaches H info .idle { c with world := w }
  | callback {c c' : Conn W} : Reaches H info .idle c →
      (c.setupReceive : Outcome W E) = .ok c' → Reaches H info .idle c'

/-- The invariant of the receive path. -/
structure Sound (p : Point) (c : Conn W) : Prop where
  wf : c.recvBuffer.Wf
  window : c.recvBuffer.window <:+ c.history.received
  opened : p ≠ .closed → c.closed = false
  idle : p = .idle → c.Ready
  loop : ∀ total, p = .loop total → c.recvBuffer.unread = total
  tail : ∀ total passed, p = .tail total passed →
    c.recvBuffer.unread = total ∧ 0 ≤ passed ∧ (passed = 0 → total = 0)

/-- What `received` makes of a read event on a connection that is ready for it. -/
theorem Ready.deliver_spec {c : Conn W} (h : c.Ready) {bs : List UInt8}
    (hbs : (bs.length : Int) ≤ c.chunkSize) :
    ∃ b, (c.deliver bs).recvBuffer.received bs.length = .ok b ∧ b.Wf ∧
      b.window = c.recvBuffer.window ++ bs ∧ b.recvPos = c.recvBuffer.recvPos ∧
      b.messageSize = c.recvBuffer.messageSize ∧ b.capacity = c.recvBuffer.capacity ∧
      (bs.length : Int) ≤ (c.deliver bs).recvBuffer.maxReceive := by
  have hfill : (c.deliver bs).recvBuffer = c.recvBuffer.fill c.recvBuffer.recvEnd bs := by
    unfold deliver
    rw [h.chunk_eq]
  rw [h.size_eq] at hbs
  obtain ⟨b, hrec, hwf, hwin, hpos, hmsg, hbcap⟩ := h.wf.received_spec hbs
  refine ⟨b, by rw [hfill]; exact hrec, hwf, hwin, hpos, hmsg, hbcap, ?_⟩
  have hend : 0 ≤ c.recvBuffer.recvEnd := by
    have h1 := h.wf.start_nonneg
    have h2 := h.wf.start_le
    omega
  have hcap : (c.recvBuffer.fill c.recvBuffer.recvEnd bs).capacity = c.recvBuffer.capacity :=
    RecvBuffer.fill_capacity _ _ hend (by unfold RecvBuffer.maxReceive at hbs; omega)
  rw [hfill]
  unfold RecvBuffer.maxReceive at hbs ⊢
  rw [hcap]
  exact hbs

/-- `setup_receive` after every byte has been passed on. -/
theorem Sound.setup {p : Point} {c c' : Conn W} (h : Sound p c) (hp : p ≠ .closed)
    (hu : c.recvBuffer.unread = 0) (hs : (c.setupReceive : Outcome W E) = .ok c') :
    Sound .idle c' := by
  rcases setupReceive_spec (E := E) h.wf hu with ⟨c₁, hc₁, hprep⟩ | ⟨c₁, hc₁, -⟩
  · have heq := Except.ok.inj (hc₁.symm.trans hs)
    subst heq
    obtain ⟨b, chunk, size, hrest⟩ := hprep.rest_eq
    refine ⟨hprep.ready.wf, ?_, fun _ => ?_, fun _ => hprep.ready, fun _ hl => absurd hl (by simp),
      fun _ _ hl => absurd hl (by simp)⟩
    · rw [hprep.window_eq, hrest]
      exact h.window
    · rw [hrest]
      exact h.opened hp
  · exact absurd (hc₁.symm.trans hs) (by simp)

/-- `advance_pos` in the loop. -/
theorem Sound.advance {c : Conn W} {total : Int} (h : Sound (.loop total) c) :
    ∃ k, c.recvBuffer.advancePos total =
        .ok ({ c.recvBuffer with recvPos := c.recvBuffer.recvPos + k }, k) ∧
      k = min (if c.recvBuffer.recvPos < c.recvBuffer.messageSize then
        c.recvBuffer.messageSize - c.recvBuffer.recvPos else c.recvBuffer.messageSize) total ∧
      ({ c.recvBuffer with recvPos := c.recvBuffer.recvPos + k } : RecvBuffer).Wf := by
  have hu := h.loop total rfl
  exact h.wf.advancePos_spec (hu ▸ h.wf.unread_nonneg) hu.ge

/-- `advance_pos` and `on_receive`: the loop's body. -/
theorem Sound.pass (H : Handlers W E) {c c' : Conn W} {b : RecvBuffer} {total passed : Int}
    (h : Sound (.loop total) c) (hadv : c.recvBuffer.advancePos total = .ok (b, passed))
    (hrec : onReceive H { c with recvBuffer := b } = .ok c') :
    Sound (.tail (total - passed) passed) c' := by
  have hu := h.loop total rfl
  obtain ⟨k, hk, hmin, hwf⟩ := h.advance
  obtain ⟨hb, hkp⟩ := Prod.mk.inj (Except.ok.inj (hk.symm.trans hadv))
  subst hkp hb
  have hgood := onReceive_good H (c := { c with
    recvBuffer := { c.recvBuffer with recvPos := c.recvBuffer.recvPos + k } }) hwf
  rw [hrec] at hgood
  refine ⟨hgood.wf, ?_, fun _ => hgood.closed.trans (h.opened (by simp)),
    fun hl => absurd hl (by simp), fun _ hl => absurd hl (by simp), fun t p hl => ?_⟩
  · rw [hgood.received]
    exact hgood.window.trans h.window
  · injection hl with ht hp
    rw [← ht, ← hp, hgood.unread]
    have hmsg := h.wf.message_pos
    have hnn := h.wf.unread_nonneg
    refine ⟨?_, by split at hmin <;> omega, fun h0 => ?_⟩
    · show c.recvBuffer.recvEnd - c.recvBuffer.recvStart - (c.recvBuffer.recvPos + k) = _
      unfold RecvBuffer.unread at hu
      omega
    · split at hmin <;> omega

/-- **The invariant holds in every state a connection runs through.** -/
theorem Reaches.sound {H : Handlers W E} {info : PeerInfo} {p : Point} {c : Conn W}
    (h : Reaches H info p c) : Sound p c := by
  induction h with
  | connect hc =>
    rw [connect_fresh hc]
    have hready := fresh_ready info (W := W)
    exact ⟨(hready _).wf, List.nil_suffix, fun _ => rfl, fun _ => hready _,
      fun _ hl => absurd hl (by simp), fun _ _ hl => absurd hl (by simp)⟩
  | @read c bs b _ hfit hrec ih =>
    obtain ⟨b', hrec', hwf, hwin, hpos, -, -, -⟩ := (ih.idle rfl).deliver_spec hfit
    obtain rfl := Except.ok.inj (hrec.symm.trans hrec')
    refine ⟨hwf, ?_, fun _ => ih.opened (by simp), fun hl => absurd hl (by simp), fun t hl => ?_,
      fun _ _ hl => absurd hl (by simp)⟩
    · show b.window <:+ c.history.received ++ bs
      rw [hwin]
      exact List.suffix_append_inj_of_length_eq rfl |>.mpr ⟨ih.window, rfl⟩
    · injection hl with hl
      show b.unread = t
      have hidle := (ih.idle rfl).unread_eq
      rw [ih.wf.unread_eq] at hidle
      rw [hwf.unread_eq, hwin, hpos, List.length_append, ← hl]
      omega
  | pass _ hadv hrec ih => exact ih.pass _ hadv hrec
  | again _ ht hk ih =>
    refine ⟨ih.wf, ih.window, fun _ => ih.opened (by simp), fun hl => absurd hl (by simp),
      fun t hl => ?_, fun _ _ hl => absurd hl (by simp)⟩
    injection hl with hl
    rw [← hl]
    exact (ih.tail _ _ rfl).1
  | close _ _ _ ih =>
    exact ⟨ih.wf, ih.window, fun hp => absurd rfl hp, fun hl => absurd hl (by simp),
      fun _ hl => absurd hl (by simp), fun _ _ hl => absurd hl (by simp)⟩
  | setup _ hend _ hs ih =>
    obtain ⟨hu, hk, h0⟩ := ih.tail _ _ rfl
    have hnn := ih.wf.unread_nonneg
    exact ih.setup (by simp) (by omega) hs
  | world w _ ih =>
    obtain ⟨hwf, hstart, hpos, hchunk, hsize, hroom⟩ := ih.idle rfl
    exact ⟨ih.wf, ih.window, fun _ => ih.opened (by simp),
      fun _ => ⟨hwf, hstart, hpos, hchunk, hsize, hroom⟩,
      fun _ hl => absurd hl (by simp), fun _ _ hl => absurd hl (by simp)⟩
  | callback _ hs ih => exact ih.setup (by simp) (ih.idle rfl).unread_eq hs

theorem Reaches.closed_eq {H : Handlers W E} {info : PeerInfo} {c : Conn W}
    (h : Reaches H info .closed c) : c.closed = true := by
  cases h
  rfl

/-! ## The calls -/

/-- The loop of `on_receive_internal` runs through these states. -/
theorem receiveLoop_reaches (H : Handlers W E) {info : PeerInfo} {c : Conn W} {total : Int}
    (h : Reaches H info (.loop total) c) :
    match receiveLoop H c total with
    | .ok c' => ∃ t k, ¬ (0 < t ∧ 0 < k) ∧ Reaches H info (.tail t k) c'
    | .error (s, _) => OwnAssert s := by
  induction c, total using receiveLoop.induct H with
  | case1 c total a hadv =>
    obtain ⟨k, hk, -⟩ := h.sound.advance
    exact absurd (hadv.symm.trans hk) (by simp)
  | case2 c total b passed hadv s hrec =>
    obtain ⟨k, hk, -, hwf⟩ := h.sound.advance
    obtain ⟨rfl, rfl⟩ := Prod.mk.inj (Except.ok.inj (hadv.symm.trans hk))
    have hgood := onReceive_good H (c := { c with
      recvBuffer := { c.recvBuffer with recvPos := c.recvBuffer.recvPos + passed } }) hwf
    rw [hrec] at hgood
    rw [receiveLoop, hadv]
    simp only [hrec]
    exact hgood
  | case3 c total b passed hadv c' hrec hgo ih =>
    rw [receiveLoop, hadv]
    simp only [hrec]
    rw [dif_pos hgo]
    exact ih ((h.pass hadv hrec).again hgo.1 hgo.2)
  | case4 c total b passed hadv c' hrec hstop =>
    rw [receiveLoop, hadv]
    simp only [hrec]
    rw [dif_neg hstop]
    exact ⟨_, _, hstop, h.pass hadv hrec⟩

/-- What a read event leads to: the next idle state, a closed connection, or a stop that is not an
assert of the receive buffer. -/
theorem read_reaches (H : Handlers W E) {info : PeerInfo} {c : Conn W} (h : Reaches H info .idle c)
    {bs : List UInt8} (hfit : (bs.length : Int) ≤ c.chunkSize) :
    match c.read H bs with
    | .ok c' => Reaches H info .idle c' ∨ Reaches H info .closed c'
    | .error (s, _) => OwnAssert s := by
  obtain ⟨b, hrec, -, -, -, -, -, hmax⟩ := (h.sound.idle rfl).deliver_spec hfit
  have hloop := receiveLoop_reaches H (h.read hfit hrec)
  unfold read onReceiveInternal ensure onBuffer
  rw [h.sound.opened (by simp), if_neg (by decide), if_pos hmax, hrec]
  simp only
  cases hl : receiveLoop H { c.deliver bs with recvBuffer := b } bs.length with
  | error s =>
    rw [hl] at hloop
    exact hloop
  | ok c' =>
    rw [hl] at hloop
    obtain ⟨t, k, hstop, htail⟩ := hloop
    unfold finish
    simp only
    by_cases hd : c'.disconnect = true
    · rw [if_pos hd]
      exact Or.inr (htail.close hstop hd)
    · rw [if_neg hd]
      obtain ⟨hu, hk, h0⟩ := htail.sound.tail _ _ rfl
      have hnn := htail.sound.wf.unread_nonneg
      rcases setupReceive_spec (E := E) htail.sound.wf (by omega) with ⟨c₁, hc₁, -⟩ | ⟨c₁, hc₁, -⟩
      · rw [hc₁]
        exact Or.inl (htail.setup hstop (by simpa using hd) hc₁)
      · rw [hc₁]
        trivial

/-- Whole runs of read events lead through these states. -/
theorem receiveAll_reaches (H : Handlers W E) {info : PeerInfo} {chunks : List (List UInt8)} :
    ∀ {c c' : Conn W}, Reaches H info .idle c ∨ Reaches H info .closed c → Fits H c chunks →
      receiveAll H c chunks = .ok c' → Reaches H info .idle c' ∨ Reaches H info .closed c' := by
  induction chunks with
  | nil =>
    rintro c _ h - ⟨⟩
    exact h
  | cons bs chunks ih =>
    intro c c' h hfits hrun
    obtain ⟨hfit, hnext⟩ := hfits
    rw [receiveAll] at hrun
    cases hread : c.read H bs with
    | error s =>
      rw [hread] at hrun
      exact absurd hrun (by simp)
    | ok c₁ =>
      rw [hread] at hrun
      refine ih ?_ (hnext c₁ hread) hrun
      by_cases hclosed : c.closed = true
      · unfold read at hread
        rw [if_pos hclosed] at hread
        exact Except.ok.inj hread ▸ h
      · rcases h with hidle | hover
        · have hreaches := read_reaches H hidle (hfit.resolve_left hclosed)
          rw [hread] at hreaches
          exact hreaches
        · exact absurd hover.closed_eq hclosed

/-- **The receive buffer neither loses, repeats nor reorders bytes.** In every state of every run:
the bounds of the indices; the buffer holds the last bytes received; in the loop, what has not
been passed on is what the loop has left; outside it, the chunk on offer is the non-empty rest of
the buffer. And no assert of the receive buffer or of `setup_receive` can fail. -/
theorem receive_invariant (H : Handlers W E) (info : PeerInfo) {p : Point} {c : Conn W}
    (h : Reaches H info p c) :
    (0 ≤ c.recvBuffer.recvStart ∧ 0 ≤ c.recvBuffer.recvPos ∧
      c.recvBuffer.recvStart + c.recvBuffer.recvPos ≤ c.recvBuffer.recvEnd ∧
      c.recvBuffer.recvEnd ≤ c.recvBuffer.capacity ∧ 0 < c.recvBuffer.messageSize) ∧
    c.recvBuffer.window = c.history.received.drop (c.history.received.length -
      (c.recvBuffer.recvEnd - c.recvBuffer.recvStart).toNat) ∧
    (∀ total, p = .loop total →
      c.recvBuffer.recvEnd - c.recvBuffer.recvStart - c.recvBuffer.recvPos = total) ∧
    (∀ total passed, p = .tail total passed →
      c.recvBuffer.recvEnd - c.recvBuffer.recvStart - c.recvBuffer.recvPos = total) ∧
    (p = .idle → c.recvBuffer.recvStart = 0 ∧ c.recvBuffer.recvPos = c.recvBuffer.recvEnd ∧
      c.currRecvChunk = c.recvBuffer.recvEnd ∧ 0 < c.chunkSize ∧
      c.currRecvChunk + c.chunkSize ≤ c.recvBuffer.capacity) ∧
    (p = .idle → ∀ bs : List UInt8, (bs.length : Int) ≤ c.chunkSize →
      match c.read H bs with
      | .ok c' => Reaches H info .idle c' ∨ Reaches H info .closed c'
      | .error (s, _) => OwnAssert s) ∧
    (p = .idle → ∀ s c', (c.setupReceive : Outcome W E) = .error (s, c') → OwnAssert s) := by
  have hs := h.sound
  refine ⟨⟨hs.wf.start_nonneg, hs.wf.pos_nonneg, hs.wf.le_end, hs.wf.end_le, hs.wf.message_pos⟩, ?_,
    hs.loop, fun t k hp => (hs.tail t k hp).1, fun hp => ?_, ?_, fun hp s c' hset => ?_⟩
  · have hlen := hs.wf.window_length
    have hse := hs.wf.start_le
    rw [show (c.recvBuffer.recvEnd - c.recvBuffer.recvStart).toNat = c.recvBuffer.window.length by
      omega]
    exact List.suffix_iff_eq_drop.mp hs.window
  · obtain ⟨hwf, hstart, hpos, hchunk, hsize, hroom⟩ := hs.idle hp
    refine ⟨hstart, hpos, hchunk, hroom, ?_⟩
    rw [hchunk, hsize]
    unfold RecvBuffer.maxReceive
    omega
  · rintro rfl bs hfit
    exact read_reaches H h hfit
  · rcases setupReceive_spec (E := E) hs.wf (hs.idle hp).unread_eq with ⟨c₁, hc₁, -⟩ |
      ⟨c₁, hc₁, -⟩
    · exact absurd (hc₁.symm.trans hset) (by simp)
    · obtain ⟨rfl, -⟩ := Prod.mk.inj (Except.error.inj (hc₁.symm.trans hset))
      trivial

/-- A peer whose id and info hash are zeros. -/
def zeroPeer : PeerInfo := ⟨List.replicate 20 0, List.replicate 20 0, some zeroDigest⟩

/-- Handlers that do nothing else. -/
def parseOnly : Handlers Unit Empty := ⟨fun _ _ w => .ok w, fun w => .ok w, fun _ w => .ok w⟩

end CometBt.Conn
