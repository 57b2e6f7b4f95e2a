import CometBt.Lib.Runs
import CometBt.Receive.Handover

/-!
# How the receive buffer grows

When the buffer is full, `setup_receive` calls `grow` twice, the second time on a value of
`max_receive` from before the first. So a message that did not fit gets a buffer of its size and
then half of it again, and this new size is not always an `int`. `growth_sound_iff` says when it
is, in every state of every run in which the buffer is full.

* `GrowsTo`: what the two calls owe `setup_receive`.
* `receiveLoop_capacity`, `setupReceive_capacity`: only a full buffer grows.
-/

namespace CometBt

/-! ## The two calls -/

namespace RecvBuffer

variable {b : RecvBuffer}

/-- `b'` has room for more, and for a message that did not fit, and the bytes of `b`. -/
structure GrowsTo (b b' : RecvBuffer) : Prop where
  larger : b.capacity < b'.capacity
  size_le : b'.capacity ≤ maxInt
  message_le : b.capacity < b.messageSize → b.messageSize ≤ b'.capacity
  bytes_eq : b'.buff.take b.recvEnd.toNat = b.buff.take b.recvEnd.toNat
  room : 0 < b'.maxReceive

/-- A third of the largest `int` is enough for the size after the first call. -/
structure Growable (b : RecvBuffer) : Prop where
  message : b.capacity < b.messageSize → 3 * b.messageSize ≤ maxInt
  half : b.messageSize ≤ b.capacity → 3 * (b.capacity * 3 / 2) ≤ maxInt

theorem window_front (hstart : b.recvStart = 0) : b.window = b.buff.take b.recvEnd.toNat := by
  unfold window
  rw [hstart, sub_zero]
  rfl

/-- **`grow`, twice**, is sound if and only if three times the size after the first call is an
`int`. -/
theorem Wf.grow_twice (h : b.Wf) (hstart : b.recvStart = 0) :
    (∃ b₁ b₂, b.grow = .ok b₁ ∧ b₁.grow = .ok b₂ ∧ b.GrowsTo b₂) ↔ b.Growable := by
  have htwo := h.two_le
  constructor
  · rintro ⟨b₁, b₂, hg₁, hg₂, -⟩
    rcases h.grow_spec with ⟨hg, -⟩ | ⟨b₁', hg, hwf₁, -, -, -, -, -, hm₁, hcap₁, hexact₁⟩
    · exact absurd (hg₁.symm.trans hg) (by simp)
    · obtain rfl := Except.ok.inj (hg₁.symm.trans hg)
      rcases hwf₁.grow_spec with ⟨hg', -⟩ | ⟨b₂', -, -, -, -, -, -, -, -, -, hexact₂⟩
      · exact absurd (hg₂.symm.trans hg') (by simp)
      · refine ⟨fun hlt => ?_, fun hle => ?_⟩
        · have hsize := hcap₁ hlt
          have := (hexact₂ (by omega)).1
          omega
        · have hsize := (hexact₁ hle).2
          have := (hexact₂ (by omega)).1
          omega
  · intro hgrow
    rcases h.grow_spec with ⟨-, hle, hover⟩ |
      ⟨b₁, hg₁, hwf₁, hwin₁, hlt₁, hs₁, he₁, -, hm₁, hcap₁, hexact₁⟩
    · have := hgrow.half hle
      omega
    rcases hwf₁.grow_spec with ⟨-, hle, hover⟩ |
      ⟨b₂, hg₂, hwf₂, hwin₂, hlt₂, hs₂, he₂, -, -, -, -⟩
    · by_cases hlt : b.capacity < b.messageSize
      · have := hgrow.message hlt
        have := hcap₁ hlt
        omega
      · have := hgrow.half (by omega)
        have := (hexact₁ (by omega)).2
        omega
    · refine ⟨b₁, b₂, hg₁, hg₂, by omega, hwf₂.cap_le, fun hlt => ?_, ?_, ?_⟩
      · have := hcap₁ hlt
        omega
      · rw [← window_front hstart, ← hwin₁, ← hwin₂, window_front (by omega), he₂, he₁]
      · have hend := h.end_le
        unfold maxReceive
        omega

/-! ## Only `grow` and `reserve` change the size -/

theorem cut_capacity {b' : RecvBuffer} {size next : Int} (h : b.cut size next 0 = .ok b') :
    b'.capacity = b.capacity := by
  unfold cut at h
  simp only [Lib.bind_eq_ok, lt_irrefl, if_false] at h
  obtain ⟨-, -, -, -, -, -, -, -, -, -, -, -, -, -, -, -, start, -, -, -, h⟩ := h
  obtain rfl := Except.ok.inj h
  rfl

theorem reset_capacity {b' : RecvBuffer} {n : Int} (h : b.reset n = .ok b') :
    b'.capacity = b.capacity := by
  unfold reset at h
  simp only [Lib.bind_eq_ok] at h
  obtain ⟨-, -, -, -, h⟩ := h
  split at h
  · exact cut_capacity h
  · obtain rfl := Except.ok.inj h
    rfl

theorem advancePos_capacity {b' : RecvBuffer} {n k : Int} (h : b.advancePos n = .ok (b', k)) :
    b'.capacity = b.capacity := by
  unfold advancePos at h
  split at h
  all_goals
    simp only [Lib.bind_eq_ok] at h
    obtain ⟨limit, -, pos, -, h⟩ := h
    obtain ⟨rfl, -⟩ := Prod.mk.inj (Except.ok.inj h)
    rfl

end RecvBuffer

namespace Conn

variable {W E : Type} {H : Handlers W E} {info : PeerInfo} {c c' : Conn W} {b : RecvBuffer}

/-- The states in which `setup_receive` is called. -/
inductive SettingUp (H : Handlers W E) (info : PeerInfo) (c : Conn W) : Prop where
  | received {total passed : Int} : Reaches H info (.tail total passed) c →
      ¬ (0 < total ∧ 0 < passed) → c.disconnect = false → SettingUp H info c
  | callback : Reaches H info .idle c → SettingUp H info c

theorem SettingUp.wf (h : SettingUp H info c) : c.recvBuffer.Wf := by
  cases h with
  | received htail => exact htail.sound.wf
  | callback hidle => exact hidle.sound.wf

/-- The calls of `grow` in `setup_receive` do not overflow, and leave a larger buffer. -/
def GrowthSound (c : Conn W) : Prop :=
  ∃ c', (c.growTwice .ok : Outcome W Empty) = .ok c' ∧ c.recvBuffer.GrowsTo c'.recvBuffer

theorem growthSound_iff (hfull : c.recvBuffer.maxReceive = 0) :
    c.GrowthSound ↔
      ∃ b₁ b₂, c.recvBuffer.grow = .ok b₁ ∧ b₁.grow = .ok b₂ ∧ c.recvBuffer.GrowsTo b₂ := by
  unfold GrowthSound growTwice onBuffer
  rw [if_pos hfull]
  constructor
  · rintro ⟨c', hrun, hgrows⟩
    split at hrun
    · exact absurd hrun (by simp)
    rename_i b₁ hg₁
    simp only at hrun
    split at hrun
    · exact absurd hrun (by simp)
    rename_i b₂ hg₂
    obtain rfl := Except.ok.inj hrun
    exact ⟨b₁, b₂, hg₁, hg₂, hgrows⟩
  · rintro ⟨b₁, b₂, hg₁, hg₂, hgrows⟩
    refine ⟨{ c with recvBuffer := b₂ }, ?_, hgrows⟩
    simp only [hg₁, hg₂]

/-- **A full buffer grows soundly if and only if the size after the first call of `grow` is at most
a third of the largest `int`.** In every state of every run in which `setup_receive` is called and,
after `clean`, the buffer is full. -/
theorem growth_sound_iff (H : Handlers W E) (info : PeerInfo) (h : SettingUp H info c)
    (hclean : c.recvBuffer.clean = .ok b) (hfull : b.maxReceive = 0) :
    { c with recvBuffer := b }.GrowthSound ↔ b.Growable := by
  obtain ⟨b', hclean', hwf, -, hstart, -⟩ := h.wf.clean_spec
  obtain rfl := Except.ok.inj (hclean.symm.trans hclean')
  rw [growthSound_iff hfull, hwf.grow_twice hstart]

/-! ## Only a full buffer grows -/

theorem guides_capacity (n : Int) : Guides (fun c : Conn W => c.recvBuffer.capacity = n)
    (fun o : Outcome W E => ∀ c', o = .ok c' → c'.recvBuffer.capacity = n) where
  returns := by
    rintro c hc c' ⟨⟩
    exact hc
  rejects := by
    rintro c hc c' ⟨⟩
    exact hc
  aborts := by
    rintro c a hc ha c' ⟨⟩
  handler := by
    rintro c e msg hc hmsg hhas c' ⟨⟩
  update hc hb _ _ _ := by
    rw [hb]
    exact hc
  reset := by
    intro c m k hc _ _ _ hk c' hrun
    unfold onBuffer at hrun
    split at hrun
    · exact absurd hrun (by simp)
    · rename_i b hreset
      exact hk { c with recvBuffer := b } ((RecvBuffer.reset_capacity hreset).trans hc) c' hrun

theorem receiveLoop_capacity {total : Int} (h : receiveLoop H c total = .ok c') :
    c'.recvBuffer.capacity = c.recvBuffer.capacity :=
  (guides_capacity c.recvBuffer.capacity).receiveLoop H
    (fun hc hadv => (RecvBuffer.advancePos_capacity hadv).trans hc)
    (fun _ c₁ h₁ => absurd h₁ (by simp)) (fun hok => hok _ rfl) rfl c' h

/-- `setup_receive` with room in the buffer. -/
theorem setupReceive_capacity (h : c.recvBuffer.Wf) (hu : c.recvBuffer.unread = 0)
    (hroom : (c.recvBuffer.window.length : Int) < c.recvBuffer.capacity)
    (hs : (c.setupReceive : Outcome W E) = .ok c') :
    c'.recvBuffer.capacity = c.recvBuffer.capacity := by
  obtain ⟨b, hclean, hwf, hwin, hstart, hpos, -, hcap⟩ := h.clean_spec
  have hlen := hwf.window_length
  rw [hwin] at hlen
  have hmax : 0 < b.maxReceive := by
    unfold RecvBuffer.maxReceive
    omega
  have hend : b.recvPos = b.recvEnd := by
    rw [h.unread_eq] at hu
    omega
  unfold setupReceive onBuffer growTwice at hs
  rw [hclean] at hs
  simp only at hs
  rw [if_neg hmax.ne', offerChunk_spec hwf hstart hend hmax] at hs
  obtain rfl := Except.ok.inj hs
  exact hcap

/-! ## A buffer that a message fills -/

/-- A read event on a connection whose handlers only parse, up to `setup_receive`. -/
theorem reads_parseOnly {c : Conn Unit} {q : Progress × List UInt8} (bs : List UInt8)
    (hidle : Reaches parseOnly info .idle c) (hsim : Sim info c q [])
    (hfit : (bs.length : Int) ≤ c.chunkSize)
    (hlive : ((reader info).feed q bs).1.stage ≠ .rejected) :
    ∃ c₁, SettingUp parseOnly info c₁ ∧ Sim info c₁ ((reader info).feed q bs) [] ∧
      c₁.recvBuffer.capacity = c.recvBuffer.capacity ∧
      ∀ c₂, (c₁.setupReceive : Outcome Unit Empty) = .ok c₂ → Reaches parseOnly info .idle c₂ := by
  have hbefore : ∀ us, us <+: bs → ((reader info).feed q us).1.stage ≠ .rejected := by
    rintro us ⟨xs, rfl⟩ hrej
    rw [Lib.Reader.feed_append] at hlive
    exact hlive ((congrArg Progress.stage (Progress.Final.feed_eq (Or.inl hrej) _ xs)).trans hrej)
  have hready := hidle.sound.idle rfl
  have hq : q.1.stage ≠ .rejected := hbefore [] List.nil_prefix
  obtain ⟨b, hrec, -, hsim'⟩ := hsim.delivered hready hq hfit
  obtain ⟨b', hrec', -, -, -, -, hcap', -⟩ := hready.deliver_spec hfit
  obtain rfl := Except.ok.inj (hrec.symm.trans hrec')
  have hreaches := receiveLoop_reaches parseOnly (hidle.read hfit hrec)
  have hfollows := receiveLoop_follows parseOnly bs.length rfl hsim' fun hrej => absurd hrej hq
  cases hloop : receiveLoop parseOnly { c.deliver bs with recvBuffer := b } bs.length with
  | error e =>
    rw [hloop] at hfollows
    obtain ⟨us, hus, -, ⟨⟨e, -⟩, -⟩ | hrej⟩ := hfollows
    · exact e.elim
    · exact absurd hrej (hbefore us hus)
  | ok c₁ =>
    rw [hloop] at hreaches hfollows
    obtain ⟨t, k, hstop, htail⟩ := hreaches
    have hdis := hfollows.1.disconnect_eq hlive
    exact ⟨c₁, .received htail hstop hdis, hfollows.1, (receiveLoop_capacity hloop).trans hcap',
      fun c₂ hs => htail.setup hstop hdis hs⟩

/-- The connection waits for a message of the length `len`, with all of its first buffer free. -/
structure Expects (len : Nat) (c : Conn Unit) (q : Progress) : Prop where
  idle : Reaches parseOnly zeroPeer .idle c
  sim : Sim zeroPeer c (q, []) []
  stage_eq : q.stage = .message len
  capacity_eq : c.recvBuffer.capacity = 1024 * 16
  chunk_eq : c.chunkSize = 1024 * 16

/-- After the handshake and a length prefix. -/
theorem expects_message (len : Nat) (h0 : 0 < len) (hlen : len < 2 ^ 31) :
    ∃ c q, Expects len c q := by
  obtain ⟨q, hq⟩ : ∃ q : Progress,
      q = { stage := .message len, offset := 68 + 4, prefixes := [(68, (len : Int))] } := ⟨_, rfl⟩
  have hsg : q.stage = .message len := by rw [hq]
  have hfeed : (reader zeroPeer).feed ({}, []) (zeroHandshake ++ serializeInt len) = (q, []) := by
    rw [Lib.Reader.feed_append, Progress.feed_handshake zeroHandshake_accepted,
      Progress.feed_prefix rfl h0 hlen, hq]
    rfl
  have hshort : (zeroHandshake ++ serializeInt len).length = 72 := by
    rw [List.length_append, zeroHandshake_accepted.length_eq, serializeInt_length]
  obtain ⟨c₁, hset, hsim, hcap, hnext⟩ := reads_parseOnly (zeroHandshake ++ serializeInt len)
    (.connect (connect_spec zeroPeer ())) ((fresh_waits zeroPeer ()).sim (by simp))
    (by rw [hshort]; decide) (by rw [hfeed, hsg]; simp)
  rw [hfeed] at hsim
  rw [fresh_capacity] at hcap
  obtain ⟨hwin, -⟩ : c₁.recvBuffer.window = [] ∧ _ := hsim.tracks_message hsg
  have hroom : (c₁.recvBuffer.window.length : Int) < c₁.recvBuffer.capacity := by
    rw [hwin, hcap]
    decide
  have hu := hsim.unread_eq
  rcases setupReceive_spec (E := Empty) hset.wf hu with ⟨c, hs, hprep⟩ | ⟨_, -, hover⟩
  swap
  · exact absurd hover.full hroom.ne'
  have hcap' := (setupReceive_capacity hset.wf hu hroom hs).trans hcap
  refine ⟨c, q, hnext c hs, hsim.setup hs, hsg, hcap', ?_⟩
  have hlen := hprep.ready.wf.window_length
  have hstart := hprep.ready.start_eq
  rw [hprep.window_eq, hwin, List.length_nil] at hlen
  rw [hprep.ready.size_eq, RecvBuffer.maxReceive, hcap']
  omega

/-- **A long message fills the first buffer**, whatever its declared length. -/
theorem filled (len : Nat) (hlo : 1024 * 16 < len) (hhi : len < 2 ^ 31) :
    ∃ (c : Conn Unit) (b : RecvBuffer), SettingUp parseOnly zeroPeer c ∧
      c.recvBuffer.clean = .ok b ∧ b.maxReceive = 0 ∧ b.capacity = 1024 * 16 ∧
      b.messageSize = len := by
  obtain ⟨c₀, q, h⟩ := expects_message len (by omega) hhi
  have hbytes : (reader zeroPeer).feed (q, []) (List.replicate (1024 * 16) 0) =
      (q, List.replicate (1024 * 16) 0) := by
    rw [(reader zeroPeer).feed_short q [], List.nil_append]
    rw [Progress.reader_need, Progress.need, h.stage_eq, List.length_replicate]
    simpa using hlo
  obtain ⟨c, hset, hsim, hcap, -⟩ := reads_parseOnly (List.replicate (1024 * 16) 0) h.idle h.sim
    (by rw [h.chunk_eq, List.length_replicate]; decide) (by rw [hbytes, h.stage_eq]; simp)
  rw [hbytes] at hsim
  obtain ⟨hwin, hmsg⟩ : c.recvBuffer.window = List.replicate (1024 * 16) 0 ∧ _ :=
    hsim.tracks_message h.stage_eq
  obtain ⟨b, hclean, hwf, hwin', hstart, -, hmsg', hcap'⟩ := hset.wf.clean_spec
  have hsize : b.capacity = 1024 * 16 := hcap'.trans (hcap.trans h.capacity_eq)
  refine ⟨c, b, hset, hclean, ?_, hsize, hmsg'.trans hmsg⟩
  have hlen := hwf.window_length
  rw [hwin', hwin, List.length_replicate] at hlen
  rw [RecvBuffer.maxReceive, hsize]
  omega

/-- A message of a megabyte. -/
theorem growth_sound_megabyte :
    ∃ (c : Conn Unit) (b : RecvBuffer), SettingUp parseOnly zeroPeer c ∧
      c.recvBuffer.clean = .ok b ∧ b.maxReceive = 0 ∧
      ({ c with recvBuffer := b }.GrowthSound ↔ b.Growable) ∧ b.Growable := by
  obtain ⟨c, b, hset, hclean, hfull, hcap, hmsg⟩ := filled (2 ^ 20) (by decide) (by decide)
  refine ⟨c, b, hset, hclean, hfull, growth_sound_iff parseOnly zeroPeer hset hclean hfull, ?_, ?_⟩
  · rw [hmsg]
    intro _
    decide
  · rw [hcap, hmsg]
    intro hle
    exact absurd hle (by decide)

/-- **The longest message overflows the second call of `grow`.** -/
theorem longest_message_overflows :
    ∃ (c : Conn Unit) (b : RecvBuffer), SettingUp parseOnly zeroPeer c ∧
      c.recvBuffer.clean = .ok b ∧ b.maxReceive = 0 ∧
      ¬ { c with recvBuffer := b }.GrowthSound := by
  obtain ⟨c, b, hset, hclean, hfull, hcap, hmsg⟩ :=
    filled (2 ^ 31 - 1) (by decide) (by decide)
  refine ⟨c, b, hset, hclean, hfull, fun hsound => ?_⟩
  obtain ⟨b', hclean', hwf, -, hstart, -⟩ := hset.wf.clean_spec
  obtain rfl := Except.ok.inj (hclean.symm.trans hclean')
  have hgrow := (hwf.grow_twice hstart).mp ((growthSound_iff hfull).mp hsound)
  have hthird := hgrow.message (by rw [hcap, hmsg]; decide)
  rw [hmsg] at hthird
  exact absurd hthird (by decide)

end Conn

end CometBt
