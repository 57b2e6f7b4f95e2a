import CometBt.Receive.Simulation
import CometBt.Receive.Stream

/-!
# The receive path reads the stream

`read_follows`: a read event does to the connection what its bytes do to the abstract reader, as
long as nothing stops the process. By `Lib.Reader.feed_append` the read events of a run then do
what their concatenation does (`receiveAll_follows`), so where the events are cut is gone.

`run_logged` is what the results about runs start from: whatever the outcome, what the connection
has done is what the reader has seen of the stream, or of a part of it at which the process stopped.
-/

namespace CometBt.Conn

variable {W E : Type} {info : PeerInfo}

/-! ## The loop of `on_receive_internal` -/

/-- The bytes `xs` have been passed on and `rest` have not: the unit is incomplete, or complete, or
the connection is in a final stage. -/
inductive Advanced (info : PeerInfo) (c : Conn W) (p : Progress × List UInt8)
    (xs rest : List UInt8) : Prop where
  | short : Tracks info c p.1 (p.2 ++ xs) rest → (p.2 ++ xs).length < p.1.need →
      Advanced info c p xs rest
  | full : Tracks info c p.1 (p.2 ++ xs) rest → (p.2 ++ xs).length = p.1.need → xs ≠ [] →
      Advanced info c p xs rest
  | rests : Rests c p.1 → c.recvBuffer.unread = rest.length →
      (xs ≠ [] → c.recvBuffer.messageSize < c.recvBuffer.recvPos) → Advanced info c p xs rest

theorem Sim.wf {c : Conn W} {p : Progress × List UInt8} {rest : List UInt8}
    (h : Sim info c p rest) : c.recvBuffer.Wf := by
  cases h with
  | tracks ht => exact ht.wf
  | rests hr => exact hr.wf

/-- What has not been passed on is what is left of the read event. -/
theorem Sim.unread_eq {c : Conn W} {p : Progress × List UInt8} {rest : List UInt8}
    (h : Sim info c p rest) : c.recvBuffer.unread = rest.length := by
  cases h with
  | tracks ht =>
    rw [ht.wf.unread_eq, ht.window_eq, ht.pos_eq, List.length_append]
    omega
  | rests _ hu => exact hu

/-- **`advance_pos`** passes some of the bytes on, at most up to the end of the unit. -/
theorem Sim.advance {c : Conn W} {p : Progress × List UInt8} {rest : List UInt8}
    (h : Sim info c p rest) :
    ∃ xs rest', rest = xs ++ rest' ∧ (rest ≠ [] → xs ≠ []) ∧
      c.recvBuffer.advancePos rest.length =
        .ok ({ c.recvBuffer with recvPos := c.recvBuffer.recvPos + xs.length }, xs.length) ∧
      ({ c.recvBuffer with recvPos := c.recvBuffer.recvPos + xs.length } : RecvBuffer).Wf ∧
      Advanced info ({ c with recvBuffer := { c.recvBuffer with
        recvPos := c.recvBuffer.recvPos + xs.length } } : Conn W) p xs rest' := by
  have hwf := h.wf
  have hu := h.unread_eq
  have hmsg := hwf.message_pos
  obtain ⟨k, hadv, hk, hwf'⟩ := hwf.advancePos_spec (n := rest.length) (by omega) hu.ge
  have hk0 : 0 ≤ k := by split at hk <;> omega
  have hkle : k ≤ rest.length := by split at hk <;> omega
  have hkpos : rest ≠ [] → 0 < k := fun hne => by
    have hlen := List.length_pos_iff.mpr hne
    split at hk <;> omega
  have hxs : ((rest.take k.toNat).length : Int) = k := by
    rw [List.length_take]
    omega
  refine ⟨rest.take k.toNat, rest.drop k.toNat, (List.take_append_drop _ _).symm,
    fun hne hnil => ?_,
    by rw [hxs]; exact hadv, by rw [hxs]; exact hwf', ?_⟩
  · rw [hnil] at hxs
    have := hkpos hne
    simp at hxs
    omega
  rw [hxs]
  have hrest : rest.take k.toNat ++ rest.drop k.toNat = rest := List.take_append_drop _ _
  have hdrop : ((rest.drop k.toNat).length : Int) = rest.length - k := by
    rw [List.length_drop]
    omega
  generalize rest.take k.toNat = xs at hxs hrest ⊢
  generalize rest.drop k.toNat = rest' at hrest hdrop ⊢
  obtain ⟨q, pending⟩ := p
  cases h with
  | tracks ht hshort =>
    simp only at ht hshort
    rw [ht.pos_eq, ht.message_eq, if_pos (by exact_mod_cast hshort)] at hk
    have ht' : Tracks info { c with
        recvBuffer := { c.recvBuffer with recvPos := c.recvBuffer.recvPos + k } } q
        (pending ++ xs) rest' := by
      have hwin : c.recvBuffer.window = pending ++ xs ++ rest' := by
        rw [ht.window_eq, ← hrest, List.append_assoc]
      refine ⟨hwf', hwin, ?_, ht.message_eq, ht.roomy, ht.state_eq, ht.info_eq, ht.choked_eq,
        ht.offset_eq, ht.disconnect_eq, ht.closed_eq, ?_⟩
      · show c.recvBuffer.recvPos + k = _
        rw [ht.pos_eq, List.length_append]
        omega
      · have hlog := ht.logged
        exact ⟨hlog.active, hlog.state, hlog.prefixes, hlog.prefixes_eq, hlog.messages,
          hlog.messages_eq⟩
    by_cases hfull : (pending ++ xs).length = q.need
    · refine .full ht' hfull ?_
      rintro rfl
      rw [List.append_nil] at hfull
      exact absurd hfull hshort.ne
    · rw [List.length_append] at hfull
      refine .short ht' ?_
      show (pending ++ xs).length < q.need
      rw [List.length_append]
      omega
  | rests hr hu' =>
    simp only at hr
    have hlog := hr.logged
    have hfin := hr.finished
    refine .rests ⟨hwf', ?_, hr.roomy, hr.offset_eq, hr.closed_eq, ?_, ?_⟩ ?_ fun hne => ?_
    · show c.recvBuffer.messageSize ≤ c.recvBuffer.recvPos + k
      omega
    · exact ⟨hlog.active, hlog.state, hlog.prefixes, hlog.prefixes_eq, hlog.messages,
        hlog.messages_eq⟩
    · cases hr.held with
      | rejected hq hdis hst => exact .rejected hq hdis hst
      | badPrefix hq hdis hst hm hv => exact .badPrefix hq hdis hst hm hv
      | stuck hq hdis hst hch hhead => exact .stuck hq hdis hst hch hhead
    · show c.recvBuffer.recvEnd - c.recvBuffer.recvStart - (c.recvBuffer.recvPos + k) = _
      unfold RecvBuffer.unread at hu
      omega
    · show c.recvBuffer.messageSize < c.recvBuffer.recvPos + k
      have hpos := List.length_pos_iff.mpr hne
      omega

/-- **The loop's body**: the reader reads the bytes that have been passed on. -/
theorem Advanced.follows (H : Handlers W E) {c : Conn W} {p : Progress × List UInt8}
    {xs rest : List UInt8} (h : Advanced info c p xs rest)
    (hrej : p.1.stage = .rejected → xs ≠ []) :
    Follows info ((reader info).feed p xs) rest (c.onReceive H) := by
  obtain ⟨q, pending⟩ := p
  cases h with
  | short ht hshort =>
    simp only at ht hshort
    rw [(reader info).feed_short q pending xs (by rwa [List.length_append] at hshort),
      onReceive_short H ht hshort]
    exact .tracks ht hshort
  | full ht hfull hne =>
    simp only at ht hfull
    rw [(reader info).feed_fill q pending xs hne (by rwa [List.length_append] at hfull)]
    exact onReceive_full H ht hfull
  | rests hr hu hmore =>
    simp only at hr hrej
    have hfollows : Follows info (q, []) rest (c.onReceive H) :=
      hr.onReceive H hu fun hq => hmore (hrej hq)
    -- a final stage has no pending bytes that matter
    have hfinal : q.Final := hr.held.final
    have hfeed : ((reader info).feed (q, pending) xs).1 = q := hfinal.feed_eq _ _
    revert hfollows
    generalize (reader info).feed (q, pending) xs = p' at hfeed
    obtain ⟨q', pending'⟩ := p'
    simp only at hfeed
    subst hfeed
    generalize c.onReceive H = o
    cases o with
    | error e => exact id
    | ok c' =>
      rintro (⟨ht, -⟩ | ⟨hr, hu⟩)
      · rcases hfinal with hq | hq | hq
        · exact absurd hq ht.live.1
        · exact absurd hq ht.live.2.1
        · exact absurd hq ht.live.2.2
      · exact .rests hr hu

/-- The process stops in the middle of the bytes `rest`: what it has done is what the reader has
seen of them. -/
def StopsIn (info : PeerInfo) (p : Progress × List UInt8) (rest : List UInt8) (s : Stop E)
    (c : Conn W) : Prop :=
  ∃ us, us <+: rest ∧ c.Logged ((reader info).feed p us).1 ∧ Cause s c ((reader info).feed p us).1

theorem StopsIn.append {p : Progress × List UInt8} {xs rest : List UInt8} {s : Stop E} {c : Conn W}
    (h : StopsIn info ((reader info).feed p xs) rest s c) : StopsIn info p (xs ++ rest) s c := by
  obtain ⟨us, hus, hlog, hcause⟩ := h
  rw [← Lib.Reader.feed_append] at hlog hcause
  exact ⟨xs ++ us, (List.prefix_append_right_inj xs).mpr hus, hlog, hcause⟩

/-- **The loop of `on_receive_internal`** reads all the bytes it has, or the process stops. -/
theorem receiveLoop_follows (H : Handlers W E) (n : Nat) :
    ∀ {c : Conn W} {p : Progress × List UInt8} {rest : List UInt8}, rest.length = n →
      Sim info c p rest → (p.1.stage = .rejected → rest ≠ []) →
      match receiveLoop H c rest.length with
      | .ok c' => Sim info c' ((reader info).feed p rest) [] ∧
          c'.history.received = c.history.received
      | .error (s, c') => StopsIn info p rest s c' := by
  induction n using Nat.strong_induction_on with
  | _ n ih =>
    intro c p rest hn h hrej
    obtain ⟨xs, rest', hsplit, hne, hadv, hwf, hadvanced⟩ := h.advance
    have hfollows := hadvanced.follows H fun hq => hne (hrej hq)
    have hgood := onReceive_good H (c := { c with
      recvBuffer := { c.recvBuffer with recvPos := c.recvBuffer.recvPos + xs.length } }) hwf
    rw [receiveLoop, hadv]
    simp only
    generalize onReceive H _ = o at hfollows hgood
    cases o with
    | error e =>
      obtain ⟨s, c'⟩ := e
      exact ⟨xs, hsplit ▸ List.prefix_append _ _, hfollows⟩
    | ok c' =>
      simp only
      have hlen : rest.length = xs.length + rest'.length := by rw [hsplit, List.length_append]
      by_cases hmore : rest' = []
      · subst hmore
        rw [dif_neg (by rw [hlen, List.length_nil]; omega)]
        rw [List.append_nil] at hsplit
        rw [hsplit]
        exact ⟨hfollows, hgood.received⟩
      · have hpos := List.length_pos_iff.mpr hmore
        have hxs : 0 < xs.length := List.length_pos_iff.mpr (hne (by
          rintro rfl
          rw [List.length_nil] at hlen
          omega))
        rw [dif_pos (by omega), show ((rest.length : Int) - xs.length) = rest'.length by omega]
        have hnext := ih rest'.length (by omega) rfl hfollows fun _ => hmore
        generalize receiveLoop H c' rest'.length = o at hnext
        cases o with
        | error e =>
          rw [hsplit]
          exact hnext.append
        | ok c'' =>
          rw [hsplit, Lib.Reader.feed_append]
          exact ⟨hnext.1, hnext.2.trans hgood.received⟩

/-! ## Read events -/

/-- The connection between read events, when the reader is at `p`. -/
inductive Waits (info : PeerInfo) (c : Conn W) (p : Progress × List UInt8) : Prop where
  | opened : c.Ready → c.closed = false → p.1.stage ≠ .rejected → Sim info c p [] → Waits info c p
  | closed : c.closed = true → p.1.stage = .rejected → c.Logged p.1 → Waits info c p

/-- Among `n` bytes received, a new size for the buffer is no `int`. -/
def TooBig (n : Nat) (q : Progress) : Prop := 1024 * 16 ≤ n ∧ (¬ q.Final → maxInt < q.need * 3)

/-- What a call leads to when the bytes `bs` are read, after `n` others. -/
def ReadsTo (info : PeerInfo) (n : Nat) (p : Progress × List UInt8) (bs : List UInt8) :
    Outcome W E → Prop
  | .ok c => Waits info c ((reader info).feed p bs) ∧ c.history.received.length ≤ n + bs.length
  | .error (s, c) => ∃ us, us <+: bs ∧ c.Logged ((reader info).feed p us).1 ∧
      (Cause s c ((reader info).feed p us).1 ∨
        s = .abort .overflow ∧ TooBig (n + us.length) ((reader info).feed p us).1)

theorem Sim.logged {c : Conn W} {p : Progress × List UInt8} {rest : List UInt8}
    (h : Sim info c p rest) : c.Logged p.1 := by
  cases h with
  | tracks ht => exact ht.logged
  | rests hr => exact hr.logged

theorem Logged.of_history {c c' : Conn W} {q : Progress} (h : c.Logged q)
    (hact : c'.active = c.active) (hst : c'.state = c.state) (hhist : c'.history = c.history) :
    c'.Logged q := by
  refine ⟨hact.trans h.active, by rw [hst]; exact h.state, ?_, ?_, ?_, ?_⟩
  · rw [hhist]
    exact h.prefixes
  · rw [hhist]
    exact h.prefixes_eq
  · rw [hhist]
    exact h.messages
  · rw [hhist]
    exact h.messages_eq

/-- What `Prepared` keeps of `Sim`. -/
theorem Sim.prepared {c c' : Conn W} {p : Progress × List UInt8} (h : Sim info c p [])
    (hp : c.Prepared c') : Sim info c' p [] := by
  obtain ⟨b, chunk, size, hrest⟩ := hp.rest_eq
  have hwin := hp.window_eq
  have hpos := hp.pos_eq
  have hmsg := hp.message_eq
  have hcap := hp.capacity_le
  have hlog : c'.Logged p.1 := h.logged.of_history (by rw [hrest]) (by rw [hrest]) (by rw [hrest])
  have hu := hp.ready.unread_eq
  cases h with
  | tracks ht hshort =>
    refine .tracks ⟨hp.ready.wf, hwin.trans ht.window_eq, hpos.trans ht.pos_eq,
      hmsg.trans ht.message_eq, ht.roomy.trans hcap, ?_, ?_, ?_, ?_, ?_, ?_, hlog⟩ hshort
    · rw [hrest]
      exact ht.state_eq
    · rw [hrest]
      exact ht.info_eq
    · rw [hrest]
      exact ht.choked_eq
    · rw [hwin, hrest]
      exact ht.offset_eq
    · rw [hrest]
      exact ht.disconnect_eq
    · rw [hrest]
      exact ht.closed_eq
  | rests hr =>
    refine .rests ⟨hp.ready.wf, ?_, hr.roomy.trans hcap, ?_, ?_, hlog, ?_⟩ hu
    · rw [hpos, hmsg]
      exact hr.finished
    · rw [hwin, hrest]
      exact hr.offset_eq
    · rw [hrest]
      exact hr.closed_eq
    · cases hr.held with
      | rejected hq hdis hst =>
        refine .rejected hq ?_ ?_
        · rw [hrest]
          exact hdis
        · rw [hmsg, hrest]
          exact hst
      | badPrefix hq hdis hst hm hv =>
        refine .badPrefix hq ?_ ?_ (hmsg.trans hm) (by rw [hwin]; exact hv)
        · rw [hrest]
          exact hdis
        · rw [hrest]
          exact hst
      | stuck hq hdis hst hch hhead =>
        refine .stuck hq ?_ ?_ ?_ (by rw [hwin]; exact hhead)
        · rw [hrest]
          exact hdis
        · rw [hrest]
          exact hst
        · rw [hrest]
          exact hch

/-- A connection that has not disconnected has rejected nothing. -/
theorem Sim.not_rejected {c : Conn W} {p : Progress × List UInt8} {rest : List UInt8}
    (h : Sim info c p rest) (hd : c.disconnect = false) : p.1.stage ≠ .rejected := by
  intro hq
  cases h with
  | tracks ht => exact ht.live.1 hq
  | rests hr =>
    cases hr.held with
    | rejected _ hdis => exact absurd (hd.symm.trans hdis) (by decide)
    | badPrefix hq' => exact absurd (hq.symm.trans hq') (by simp)
    | stuck hq' => exact absurd (hq.symm.trans hq') (by simp)

theorem Sim.disconnect_eq {c : Conn W} {p : Progress × List UInt8} {rest : List UInt8}
    (h : Sim info c p rest) (hq : p.1.stage ≠ .rejected) : c.disconnect = false := by
  cases h with
  | tracks ht => exact ht.disconnect_eq
  | rests hr =>
    cases hr.held with
    | rejected hq' => exact absurd hq' hq
    | badPrefix _ hdis => exact hdis
    | stuck _ hdis => exact hdis

/-- The end of `on_receive_internal`. -/
theorem finish_follows {c : Conn W} {p : Progress × List UInt8} {bs : List UInt8} {n : Nat}
    (h : Sim info c ((reader info).feed p bs) [])
    (hn : c.history.received.length ≤ n + bs.length) :
    ReadsTo info n p bs (c.finish : Outcome W E) := by
  generalize hp' : (reader info).feed p bs = p' at h
  unfold finish
  by_cases hd : c.disconnect = true
  · rw [if_pos hd]
    refine ⟨?_, hn⟩
    rw [hp']
    refine .closed rfl ?_ (h.logged.of_history rfl rfl rfl)
    cases h with
    | tracks ht => exact absurd (hd.symm.trans ht.disconnect_eq) (by decide)
    | rests hr =>
      cases hr.held with
      | rejected hq => exact hq
      | badPrefix _ hdis => exact absurd (hd.symm.trans hdis) (by decide)
      | stuck _ hdis => exact absurd (hd.symm.trans hdis) (by decide)
  · rw [if_neg hd]
    have hlive := h.not_rejected (Bool.eq_false_iff.mpr hd)
    have hwf := h.wf
    have hu : c.recvBuffer.unread = 0 := h.unread_eq
    have hclosed : c.closed = false := by
      cases h with
      | tracks ht => exact ht.closed_eq
      | rests hr => exact hr.closed_eq
    rcases setupReceive_spec (E := E) hwf hu with ⟨c', hc', hprep⟩ | ⟨c', hc', hover⟩
    · rw [hc']
      obtain ⟨b, chunk, size, hrest⟩ := hprep.rest_eq
      refine ⟨?_, by rw [hrest]; exact hn⟩
      rw [hp']
      exact .opened hprep.ready (by rw [hrest]; exact hclosed) hlive (h.prepared hprep)
    · rw [hc']
      obtain ⟨b, hrest⟩ := hover.rest_eq
      refine ⟨bs, List.prefix_refl _, ?_, Or.inr ⟨rfl, ?_, fun hfin => ?_⟩⟩
      · rw [hp', hrest]
        exact h.logged.of_history rfl rfl rfl
      · have hfull := hover.full
        cases h with
        | tracks ht =>
          have := ht.offset_eq
          have := ht.roomy
          omega
        | rests hr =>
          have := hr.offset_eq hlive
          have := hr.roomy
          omega
      · rw [hp'] at hfin ⊢
        cases h with
        | tracks ht hshort =>
          rw [← ht.message_eq]
          refine hover.too_big ?_
          rw [hover.full, ht.message_eq, ht.window_eq, List.append_nil]
          exact_mod_cast hshort
        | rests hr => exact absurd hr.held.final hfin

/-- The bytes of a read event are in the buffer, and still to be passed on. -/
theorem Sim.delivered {c : Conn W} {p : Progress × List UInt8} {bs : List UInt8}
    (h : Sim info c p []) (hready : c.Ready) (hq : p.1.stage ≠ .rejected)
    (hfit : (bs.length : Int) ≤ c.chunkSize) :
    ∃ b, (c.deliver bs).recvBuffer.received bs.length = .ok b ∧
      (bs.length : Int) ≤ (c.deliver bs).recvBuffer.maxReceive ∧
      Sim info { c.deliver bs with recvBuffer := b } p bs := by
  obtain ⟨b, hrec, hwf, hwin, hpos, hmsg, hcap, hmax⟩ := hready.deliver_spec hfit
  refine ⟨b, hrec, hmax, ?_⟩
  have hlog : Conn.Logged ({ c.deliver bs with recvBuffer := b } : Conn W) p.1 := by
    obtain ⟨hact, hst, hp, hpe, hm, hme⟩ := h.logged
    exact ⟨hact, hst, hp, hpe, hm, hme⟩
  have hrecv : ({ c.deliver bs with recvBuffer := b } : Conn W).history.received =
      c.history.received ++ bs := rfl
  have hwinlen : b.window.length = c.recvBuffer.window.length + bs.length := by
    rw [hwin, List.length_append]
  cases h with
  | tracks ht hshort =>
    refine .tracks ⟨hwf, ?_, hpos.trans ht.pos_eq, hmsg.trans ht.message_eq,
      ht.roomy.trans hcap.ge, ht.state_eq, ht.info_eq, ht.choked_eq, ?_, ht.disconnect_eq,
      ht.closed_eq, hlog⟩ hshort
    · show b.window = _
      rw [hwin, ht.window_eq, List.append_nil]
    · rw [hrecv, List.length_append, ← ht.offset_eq]
      show p.1.offset + b.window.length = _
      omega
  | rests hr hu =>
    refine .rests ⟨hwf, ?_, hr.roomy.trans hcap.ge, fun hne => ?_, hr.closed_eq, hlog, ?_⟩ ?_
    · show b.messageSize ≤ b.recvPos
      rw [hpos, hmsg]
      exact hr.finished
    · rw [hrecv, List.length_append, ← hr.offset_eq hne]
      show p.1.offset + b.window.length = _
      omega
    · cases hr.held with
      | rejected hq' => exact absurd hq' hq
      | badPrefix hq' hdis hst hm hv =>
        refine .badPrefix hq' hdis hst (hmsg.trans hm) ?_
        show deserializeInt (b.window.take 4) ≤ 0
        have hfour := hr.finished
        have hle := hr.wf.unread_nonneg
        rw [hr.wf.unread_eq] at hle
        rw [hwin, List.take_append_of_le_length (by omega)]
        exact hv
      | stuck hq' hdis hst hch hhead =>
        refine .stuck hq' hdis hst hch ?_
        show b.window.head? = _
        rw [hwin, List.head?_append, hhead]
        rfl
    · show b.unread = _
      have hu' := hready.unread_eq
      rw [hr.wf.unread_eq] at hu'
      rw [hwf.unread_eq, hpos, hwinlen]
      omega

/-- **A read event reads its bytes.** -/
theorem read_follows (H : Handlers W E) {c : Conn W} {p : Progress × List UInt8} {bs : List UInt8}
    (h : Waits info c p) (hfit : c.closed = true ∨ (bs.length : Int) ≤ c.chunkSize) :
    ReadsTo info c.history.received.length p bs (c.read H bs) := by
  unfold read
  cases h with
  | closed hclosed hq hlog =>
    rw [if_pos hclosed]
    have hfeed : ((reader info).feed p bs).1 = p.1 := Progress.Final.feed_eq (Or.inl hq) p.2 bs
    exact ⟨.closed hclosed (by rw [hfeed]; exact hq) (by rw [hfeed]; exact hlog),
      Nat.le_add_right _ _⟩
  | opened hready hclosed hq hsim =>
    have hfit : (bs.length : Int) ≤ c.chunkSize :=
      hfit.resolve_left (by rw [hclosed]; decide)
    obtain ⟨b, hrec, hmax, hsim'⟩ := hsim.delivered hready hq hfit
    rw [if_neg (by rw [hclosed]; decide)]
    unfold onReceiveInternal ensure onBuffer
    rw [if_pos hmax, hrec]
    simp only
    have hloop := receiveLoop_follows H bs.length rfl hsim' fun hrej => absurd hrej hq
    generalize receiveLoop H _ (bs.length : Int) = o at hloop
    cases o with
    | error e =>
      obtain ⟨us, hus, hlog, hcause⟩ := hloop
      exact ⟨us, hus, hlog, Or.inl hcause⟩
    | ok c' =>
      refine finish_follows hloop.1 (le_of_eq ?_)
      rw [hloop.2]
      exact List.length_append

/-- A new connection waits for the first byte. -/
theorem fresh_waits (info : PeerInfo) (w : W) : Waits info (fresh info w) ({}, []) := by
  have hready := fresh_ready info w
  refine .opened hready rfl (by simp) (.tracks ⟨hready.wf, ?_, rfl, rfl, ?_, rfl, rfl, rfl, ?_, rfl,
    rfl, ?_⟩ (by decide))
  · rfl
  · rw [fresh_capacity]
  · rfl
  · exact .exact rfl (pstate_authenticated rfl) rfl rfl

theorem Waits.sim {c : Conn W} {p : Progress × List UInt8} (h : Waits info c p)
    (hq : p.1.stage ≠ .rejected) : Sim info c p [] := by
  cases h with
  | opened _ _ _ hsim => exact hsim
  | closed _ hrej => exact absurd hrej hq

theorem Waits.ready {c : Conn W} {p : Progress × List UInt8} (h : Waits info c p)
    (hq : p.1.stage ≠ .rejected) : c.Ready := by
  cases h with
  | opened hready => exact hready
  | closed _ hrej => exact absurd hrej hq

theorem Waits.open_eq {c : Conn W} {p : Progress × List UInt8} (h : Waits info c p)
    (hq : p.1.stage ≠ .rejected) : c.closed = false := by
  cases h with
  | opened _ hopen => exact hopen
  | closed _ hrej => exact absurd hrej hq

/-- In the middle of a message, with nothing left to pass on. -/
theorem Sim.tracks_message {c : Conn W} {p : Progress × List UInt8} {len : Nat}
    (h : Sim info c p []) (hsg : p.1.stage = .message len) :
    c.recvBuffer.window = p.2 ∧ c.recvBuffer.messageSize = len := by
  cases h with
  | tracks ht =>
    refine ⟨by rw [ht.window_eq, List.append_nil], ?_⟩
    rw [ht.message_eq, Progress.need, hsg]
  | rests hr =>
    rcases hr.held.final with h | h | h
    all_goals exact absurd (hsg.symm.trans h) (by simp)

/-- After `setup_receive` a connection that waits goes on waiting. -/
theorem Waits.setupReceive {c c' : Conn W} {p : Progress × List UInt8} (h : Waits info c p)
    (hopen : c.closed = false) (hc' : (c.setupReceive : Outcome W E) = .ok c') :
    Waits info c' p := by
  cases h with
  | closed hclosed => exact absurd (hopen.symm.trans hclosed) (by decide)
  | opened hready hclosed hq hsim =>
    obtain ⟨c'', hok, hprep⟩ := hready.setupReceive E
    obtain rfl := Except.ok.inj (hok.symm.trans hc')
    refine .opened hprep.ready ?_ hq (hsim.prepared hprep)
    obtain ⟨b, chunk, size, rfl⟩ := hprep.rest_eq
    exact hclosed

/-- **A run of read events reads the stream they make up**, wherever it is cut. -/
theorem receiveAll_follows (H : Handlers W E) (chunks : List (List UInt8)) :
    ∀ {c : Conn W} {p : Progress × List UInt8}, Waits info c p → Fits H c chunks →
      ReadsTo info c.history.received.length p chunks.flatten (receiveAll H c chunks) := by
  induction chunks with
  | nil =>
    intro c p h _
    exact ⟨h, le_refl _⟩
  | cons bs chunks ih =>
    intro c p h hfits
    obtain ⟨hfit, hnext⟩ := hfits
    have hread := read_follows H h hfit
    rw [List.flatten_cons, receiveAll]
    generalize hr : c.read H bs = o at hread
    cases o with
    | error e =>
      obtain ⟨us, hus, hstop⟩ := hread
      exact ⟨us, hus.trans (List.prefix_append _ _), hstop⟩
    | ok c' =>
      obtain ⟨hwaits, hle⟩ := hread
      have hrest := ih hwaits (hnext c' hr)
      simp only
      generalize receiveAll H c' chunks = o at hrest
      cases o with
      | error e =>
        obtain ⟨us, hus, hlog, hstop⟩ := hrest
        rw [← Lib.Reader.feed_append] at hlog hstop
        refine ⟨bs ++ us, (List.prefix_append_right_inj bs).mpr hus, hlog, hstop.imp_right ?_⟩
        rintro ⟨hover, hbig, hneed⟩
        exact ⟨hover, by rw [List.length_append]; omega, hneed⟩
      | ok c'' =>
        obtain ⟨hwaits', hle'⟩ := hrest
        rw [← Lib.Reader.feed_append] at hwaits'
        exact ⟨hwaits', by rw [List.length_append]; omega⟩

/-! ## Whole runs -/

theorem Waits.logged {c : Conn W} {p : Progress × List UInt8} (h : Waits info c p) :
    c.Logged p.1 := by
  cases h with
  | opened _ _ _ hsim => exact hsim.logged
  | closed _ _ hlog => exact hlog

/-- Only a message is too long. -/
theorem TooBig.stage {n : Nat} {q : Progress} (h : TooBig n q) :
    q.Final ∨ ∃ len, q.stage = .message len ∧ maxInt < 3 * len := by
  by_cases hfin : q.Final
  · exact Or.inl hfin
  have hneed := h.2 hfin
  unfold Progress.need maxInt at hneed
  rcases hsg : q.stage with _ | _ | _ | _ | len | _ | _ | _ <;> rw [hsg] at hneed
  case message =>
    refine Or.inr ⟨len, rfl, ?_⟩
    simp only at hneed
    unfold maxInt
    omega
  all_goals exact absurd hneed (by decide)

/-- Where a run stops: in a message, after one, or in a final stage. -/
theorem ReadsTo.stops {bs : List UInt8} {s : Stop E} {c : Conn W}
    (h : ReadsTo info 0 ({}, []) bs (.error (s, c) : Outcome W E)) :
    ∃ us, us <+: bs ∧ c.Logged (readStream info us).1 ∧
      ((∃ e, s = .handler e) ∧ (readStream info us).1.stage.authenticated = true ∧
          c.history.messages ≠ [] ∨
        (readStream info us).1.Final ∨
        ∃ len, (readStream info us).1.stage = .message len ∧ maxInt < 3 * len) := by
  obtain ⟨us, hus, hlog, hcause | ⟨-, hbig⟩⟩ := h
  · refine ⟨us, hus, hlog, ?_⟩
    rcases hcause with hhandler | hrej
    · exact Or.inl hhandler
    · exact Or.inr (Or.inl (Or.inl hrej))
  · exact ⟨us, hus, hlog, Or.inr hbig.stage⟩

/-- The reader gets through `bs`, and three times each length in it is an `int`. -/
structure Ample (info : PeerInfo) (bs : List UInt8) : Prop where
  live : ¬ (readStream info bs).1.Final
  bounded : ∀ x ∈ (readStream info bs).1.prefixes, 3 * x.2 ≤ maxInt

theorem Ample.of_prefix {us bs : List UInt8} (h : Ample info bs) (hus : us <+: bs) :
    Ample info us := by
  obtain ⟨xs, rfl⟩ := hus
  refine ⟨fun hfin => h.live ?_, fun x hx => h.bounded x ?_⟩ <;> rw [readStream_append]
  · rwa [hfin.feed_eq _ xs]
  · exact (Progress.feed_prefixes _ xs).subset hx

/-- An ample stream has no length that is too large. -/
theorem Ample.length_le {bs : List UInt8} (h : Ample info bs) {len : Nat}
    (hsg : (readStream info bs).1.stage = .message len) : 3 * (len : Int) ≤ maxInt := by
  obtain ⟨o, ho⟩ := Progress.feed_declared info bs hsg
  exact h.bounded _ ho

theorem receiveAll_fresh (H : Handlers W E) (info : PeerInfo) (w : W)
    {chunks : List (List UInt8)} (hfits : Fits H (fresh info w) chunks) :
    ReadsTo info 0 ({}, []) chunks.flatten (receiveAll H (fresh info w) chunks) :=
  receiveAll_follows H chunks (fresh_waits info w) hfits

/-- There is room for what is left of sixteen kilobytes. -/
theorem Waits.roomy {c : Conn W} {p : Progress × List UInt8} (h : Waits info c p) :
    c.closed = true ∨ 1024 * 16 - (c.history.received.length : Int) ≤ c.chunkSize := by
  cases h with
  | closed hclosed => exact Or.inl hclosed
  | opened hready _ hq hsim =>
    have hlen := hready.wf.window_length
    have hstart := hready.start_eq
    rw [hready.size_eq, RecvBuffer.maxReceive]
    refine Or.inr ?_
    cases hsim with
    | tracks ht =>
      have hcap := ht.roomy
      have hoff := ht.offset_eq
      omega
    | rests hr =>
      have hcap := hr.roomy
      have hoff := hr.offset_eq hq
      omega

/-- A stream of at most sixteen kilobytes fits, wherever it is cut. -/
theorem Waits.fits (H : Handlers W E) {chunks : List (List UInt8)} :
    ∀ {c : Conn W} {p : Progress × List UInt8}, Waits info c p →
      c.history.received.length + chunks.flatten.length ≤ 1024 * 16 → Fits H c chunks := by
  induction chunks with
  | nil => exact fun _ _ => trivial
  | cons bs chunks ih =>
    intro c p h hshort
    rw [List.flatten_cons, List.length_append] at hshort
    have hfit : c.closed = true ∨ (bs.length : Int) ≤ c.chunkSize :=
      h.roomy.imp_right fun hroom => by omega
    refine ⟨hfit, fun c' hread => ?_⟩
    have hnext := read_follows H h hfit
    rw [hread] at hnext
    exact ih hnext.1 (by have := hnext.2; omega)

theorem fits_of_short (H : Handlers W E) (info : PeerInfo) (w : W) {chunks : List (List UInt8)}
    (hshort : chunks.flatten.length ≤ 1024 * 16) : Fits H (fresh info w) chunks :=
  (fresh_waits info w).fits H (by rwa [show (fresh info w).history.received = [] from rfl,
    List.length_nil, Nat.zero_add])

/-- Between two reads of a run, the reader has read the stream. -/
theorem run_waits {H : Handlers W E} {info : PeerInfo} {w : W} {chunks : List (List UInt8)}
    (hfits : Fits H (fresh info w) chunks) {c : Conn W}
    (hrun : receiveAll H (fresh info w) chunks = .ok c) :
    Waits info c (readStream info chunks.flatten) := by
  have hreads := receiveAll_fresh H info w hfits
  rw [hrun] at hreads
  exact hreads.1

/-- What happens on the connection is what the reader sees of a part of the stream, after which it
is past the handshake if it ever will be. -/
theorem run_logged (H : Handlers W E) (info : PeerInfo) (w : W) {chunks : List (List UInt8)}
    (hfits : Fits H (fresh info w) chunks) :
    ∃ us, us <+: chunks.flatten ∧
      (receiveAll H (fresh info w) chunks).conn.Logged (readStream info us).1 ∧
      ((readStream info us).1.stage.authenticated =
        (readStream info chunks.flatten).1.stage.authenticated) := by
  have hreads := receiveAll_fresh H info w hfits
  generalize receiveAll H (fresh info w) chunks = o at hreads
  cases o with
  | ok c => exact ⟨chunks.flatten, List.prefix_refl _, hreads.1.logged, rfl⟩
  | error e =>
    obtain ⟨us, ⟨xs, hxs⟩, hlog, hstop⟩ := hreads.stops
    refine ⟨us, ⟨xs, hxs⟩, hlog, ?_⟩
    rw [← hxs, readStream_append]
    generalize readStream info us = p at hstop
    have hauth : p.1.stage.authenticated = true ∨ p.1.Final := by
      rcases hstop with ⟨-, hauth, -⟩ | hfin | ⟨len, hsg, -⟩
      · exact Or.inl hauth
      · exact Or.inr hfin
      · exact Or.inl (by rw [hsg]; rfl)
    rcases hauth with hauth | hfin
    · rw [hauth, Progress.feed_authenticated p xs hauth]
    · rw [hfin.feed_eq p.2 xs]

end CometBt.Conn
