import CometBt.Memory.SendSteps

/-!
# Runs of the sends

* **`sends_delivered`**: over all orders of sends, callbacks and closes on any number of
  connections, each peer gets the messages written to it, in order, exactly if no byte of a
  `REQUEST` or an `INTERESTED` is read after the call that wrote it.
* **`drained_iff`**: where everything is written out in the end, this takes every `REQUEST` and
  `INTERESTED` to have found nothing waiting, and to have been taken as a whole.
* **`sends_ledger`**: no block is freed twice, and those never freed are those of the `HAVE`s that
  are not sent, and of writes that fail.
-/

namespace CometBt.Sends

open Lib

variable {w w' : World} {l l' : Line} {ls ls' : List Line} {bytes : List UInt8} {k n c : Nat}

/-- The lines of connections that have not been connected. -/
def initialLines (n : Nat) : List Line := List.replicate n {}

theorem rel_initial (n : Nat) : Rel (initial n) (initialLines n) 0 := by
  have hheld : held (initial n).streams = [] := by
    refine List.flatMap_eq_nil_iff.mpr fun st hst => ?_
    rw [List.eq_of_mem_replicate hst]
    rfl
  refine ⟨?_, ?_, fun {k st l} hst hline => ?_⟩
  · rw [hheld]
    exact ⟨fun a ha => absurd ha List.not_mem_nil, List.nodup_nil, rfl⟩
  · exact List.length_replicate.trans List.length_replicate.symm
  · rw [List.eq_of_mem_replicate (List.mem_of_getElem? hst),
      List.eq_of_mem_replicate (List.mem_of_getElem? hline)]
    exact ⟨rfl, rfl, rfl, List.Forall₂.nil⟩

/-- The streams do what the lines do. -/
def Related (w : World) (ls : List Line) : Prop := ∃ c, Rel w ls c

theorem related_step {e : Event} (h : Related w ls) (hls : lineStep ls e = .ok ls')
    (hprompt : Prompt ls e) : ∃ w', step w e = .ok w' ∧ Related w' ls' := by
  obtain ⟨c, hrel⟩ := h
  obtain ⟨w', hw', hrel'⟩ := step_related hrel hls hprompt
  exact ⟨w', hw', _, hrel'⟩

theorem related_back {e : Event} (h : Related w ls) (hw : step w e = .ok w') :
    Prompt ls e ∧ ∃ ls', lineStep ls e = .ok ls' := by
  obtain ⟨c, hrel⟩ := h
  exact step_back hrel hw

theorem related_initial (connections : Nat) :
    Related (initial connections) (initialLines connections) := ⟨0, rel_initial connections⟩

/-- **No freed memory is used exactly if the run is prompt.** -/
theorem returns_iff (connections : Nat) (es : List Event) :
    (∃ w, runFrom step (initial connections) es = .ok w) ↔
      (∃ ls, runFrom lineStep (initialLines connections) es = .ok ls) ∧
        Along lineStep Prompt (initialLines connections) es := by
  have hgood : ∀ w ls e ls', Related w ls → lineStep ls e = .ok ls' → Prompt ls e →
      ∃ w', step w e = .ok w' ∧ Related w' ls' := fun _ _ _ _ => related_step
  have hback : ∀ w ls e w', Related w ls → step w e = .ok w' →
      Prompt ls e ∧ ∃ ls', lineStep ls e = .ok ls' := fun _ _ _ _ => related_back
  exact run_returns_iff hgood hback (related_initial connections)

/-- **No block is freed twice**, each that is left is freed by one callback that is due, and the
others are those that the sends leave to nobody. -/
theorem sends_ledger (connections : Nat) {es : List Event}
    (h : runFrom step (initial connections) es = .ok w) :
    w.heap.Books (held w.streams) (tally step leaked (initial connections) es) := by
  have hstep : ∀ w e w' c, (∃ ls, Rel w ls c) → step w e = .ok w' →
      ∃ ls, Rel w' ls (c + leaked w e) := by
    rintro w e w' c ⟨ls, hrel⟩ hw'
    obtain ⟨hprompt, ls', hls'⟩ := step_back hrel hw'
    obtain ⟨w₂, hw₂, hrel'⟩ := step_related hrel hls' hprompt
    obtain rfl := Except.ok.inj (hw'.symm.trans hw₂)
    exact ⟨ls', hrel'⟩
  obtain ⟨ls, hrel⟩ := run_tally hstep ⟨_, rel_initial connections⟩ h
  rw [Nat.zero_add] at hrel
  exact hrel.books

/-- Two connections are made, the second with its handshake in two parts, and one asks for a block
and tells the other of a piece; all is called back. -/
def sampleRun : List Event :=
  [.connect 0 zeroDigest (List.replicate 20 0x41) 68,
    .connect 1 zeroDigest (List.replicate 20 0x42) 10, .callback 0, .flush 1 58, .callback 1,
    .request 0 1 0 16384 17, .have 0 1 [0, 9], .callback 0, .callback 1]

/-- **The callbacks have freed all of their blocks**; those of the `HAVE` that the connection
would send to itself are left. -/
theorem sends_ledger_sample :
    ∃ w, runFrom step (initial 2) sampleRun = .ok w ∧ w.heap.Books [] 3 := by
  obtain ⟨w, hrun, hheld⟩ : ∃ w, runFrom step (initial 2) sampleRun = .ok w ∧
      held w.streams = [] := ⟨_, rfl, rfl⟩
  have hbooks := sends_ledger 2 hrun
  have hleaked : tally step leaked (initial 2) sampleRun = 3 := by decide +kernel
  rw [hheld, hleaked] at hbooks
  exact ⟨w, hrun, hbooks⟩
/-! ## What the peers get -/

/-- What has been written has come out, waits, or was given up when the line was closed. -/
def Line.Fifo (l : Line) : Prop :=
  ∃ lost, l.written = l.taken ++ (l.queue.map Prod.snd).flatten ++ lost ∧
    (l.closed = false → lost = [])

theorem Line.Fifo.flush (hl : l.Fifo) (n : Nat) : (l.flush n).Fifo := by
  obtain ⟨lost, hwritten, hlost⟩ := hl
  unfold Line.flush
  split
  · exact ⟨lost, hwritten, hlost⟩
  · rename_i b bytes rest hq
    refine ⟨lost, ?_, hlost⟩
    rw [hq, List.map_cons, List.flatten_cons] at hwritten
    rw [hwritten]
    by_cases hn : bytes.length ≤ n
    · simp only [if_pos hn, List.take_of_length_le hn, List.append_assoc]
    · have hsplit : bytes = bytes.take n ++ bytes.drop n := (List.take_append_drop n bytes).symm
      simp only [if_neg hn, List.map_cons, List.flatten_cons]
      conv_lhs => rw [hsplit]
      simp only [List.append_assoc]

theorem Line.Fifo.write (hl : l.Fifo) (b : Bool) (bytes : List UInt8) (n : Nat) :
    (l.write b bytes n).Fifo := by
  unfold Line.write
  by_cases hclosed : l.closed = true
  · rw [if_pos hclosed]
    exact hl
  · have hadd : Line.Fifo { l with
        queue := l.queue ++ [(b, bytes)], written := l.written ++ bytes } := by
      obtain ⟨lost, hwritten, hlost⟩ := hl
      obtain rfl := hlost (Bool.eq_false_iff.mpr hclosed)
      refine ⟨[], ?_, fun _ => rfl⟩
      rw [List.append_nil] at hwritten
      simp [hwritten]
    rw [if_neg hclosed]
    split_ifs
    · exact hadd.flush n
    · exact hadd

theorem Line.Fifo.close (hl : l.Fifo) : l.close.Fifo := by
  obtain ⟨lost, hwritten, -⟩ := hl
  refine ⟨(l.queue.map Prod.snd).flatten ++ lost, ?_, fun h => absurd h (by simp [Line.close])⟩
  change l.written = l.taken ++ [] ++ _
  rw [hwritten, List.append_nil, List.append_assoc]

theorem forall_set {P : Line → Prop} (h : ∀ l ∈ ls, P l) (hl : P l') : ∀ l ∈ ls.set k l', P l := by
  intro l hmem
  rcases List.mem_or_eq_of_mem_set hmem with hold | rfl
  · exact h l hold
  · exact hl

theorem forall_modify {P : Line → Prop} {f : Line → Line} (h : ∀ l ∈ ls, P l)
    (hf : ∀ l, P l → P (f l)) : ∀ l ∈ ls.modify k f, P l := by
  rw [List.modify_eq_set_getElem?]
  cases hline : ls[k]? with
  | none => exact h
  | some l => exact forall_set h (hf l (h l (List.mem_of_getElem? hline)))

theorem haveLine_fifo (h : ∀ l ∈ ls, l.Fifo) (this : Nat) (bytes : List UInt8)
    (answers : List Nat) (i : Nat) : ∀ l ∈ haveLine this bytes answers ls i, l.Fifo := by
  unfold haveLine
  split
  · rename_i l hline
    split_ifs
    · exact forall_set h ((h l (List.mem_of_getElem? hline)).write false _ _)
    · exact h
  · exact h

/-- **Every line is a queue.** -/
theorem lineStep_fifo {e : Event} (h : ∀ l ∈ ls, l.Fifo) (hstep : lineStep ls e = .ok ls') :
    ∀ l ∈ ls', l.Fifo := by
  have hmessage : ∀ {k bytes n}, writeLine ls k bytes n = .ok ls' → ∀ l ∈ ls', l.Fifo := by
    intro k bytes n hwrite
    unfold writeLine at hwrite
    split at hwrite
    · rename_i l hline
      split_ifs at hwrite
      obtain rfl := Except.ok.inj hwrite
      exact forall_set h ((h l (List.mem_of_getElem? hline)).write true bytes n)
    · exact absurd hwrite (by simp)
  cases e with
  | connect k infoHash peerId n =>
    cases hline : ls[k]? with
    | none => exact absurd hstep (by simp [lineStep, hline])
    | some l =>
      obtain rfl := Except.ok.inj ((lineStep_connect hline).symm.trans hstep)
      obtain ⟨lost, hfifo⟩ := h l (List.mem_of_getElem? hline)
      have hconn : Line.Fifo { l with connected := true } := ⟨lost, hfifo⟩
      exact forall_set h (hconn.write false _ n)
  | request k index offset length n => exact hmessage hstep
  | interested k n => exact hmessage hstep
  | «have» this index answers =>
    obtain rfl := Except.ok.inj hstep
    have hloop : ∀ (is : List Nat) (ls : List Line), (∀ l ∈ ls, l.Fifo) →
        ∀ l ∈ is.foldl (haveLine this (createHaveMessage index).bytes answers) ls, l.Fifo := by
      intro is
      induction is with
      | nil => exact fun _ h => h
      | cons i is ih => exact fun ls h => ih _ (haveLine_fifo h this _ answers i)
    exact hloop _ ls h
  | flush k n =>
    obtain rfl := Except.ok.inj hstep
    exact forall_modify h fun l hl => hl.flush n
  | callback k =>
    obtain rfl := Except.ok.inj hstep
    exact h
  | close k =>
    obtain rfl := Except.ok.inj hstep
    exact forall_modify h fun l hl => hl.close

/-- At the end of a run that returns, the kernel has taken what has come out of the lines. -/
theorem taken_eq (connections : Nat) {es : List Event}
    (h : runFrom step (initial connections) es = .ok w)
    (hls : runFrom lineStep (initialLines connections) es = .ok ls) :
    w.streams.map Stream.taken = ls.map (fun l => l.taken.map some) := by
  have hgood : ∀ w ls e ls', Related w ls → lineStep ls e = .ok ls' → Prompt ls e →
      ∃ w', step w e = .ok w' ∧ Related w' ls' := fun _ _ _ _ => related_step
  have hback : ∀ w ls e w', Related w ls → step w e = .ok w' →
      Prompt ls e ∧ ∃ ls', lineStep ls e = .ok ls' := fun _ _ _ _ => related_back
  obtain ⟨ls', hls', c, hrel⟩ := run_related hgood hback (related_initial connections) h
  obtain rfl := Except.ok.inj (hls.symm.trans hls')
  refine List.ext_getElem? fun k => ?_
  rw [List.getElem?_map, List.getElem?_map]
  cases hst : w.streams[k]? with
  | none =>
    have hlen : ls.length ≤ k := hrel.lines.length ▸ List.getElem?_eq_none_iff.mp hst
    rw [List.getElem?_eq_none hlen]
    rfl
  | some st =>
    obtain ⟨l, hline, hl⟩ := hrel.lines.get hst
    rw [hline]
    exact congrArg some hl.taken

theorem fifo_run (connections : Nat) {es : List Event}
    (hls : runFrom lineStep (initialLines connections) es = .ok ls) : ∀ l ∈ ls, l.Fifo := by
  refine run_invariant (P := fun _ _ => True) (I := fun ls => ∀ l ∈ ls, Line.Fifo l)
    (fun _ _ _ h _ hstep => lineStep_fifo h hstep) (fun l hl => ?_) (along_true _ es) hls
  rw [List.eq_of_mem_replicate hl]
  exact ⟨[], rfl, fun _ => rfl⟩

/-- **Each peer gets the messages written to it, in order, exactly if the run is prompt**: no byte
of a `REQUEST` or an `INTERESTED` is read after the call that wrote it. What is written goes missing
only on a line that is closed. -/
theorem sends_delivered (connections : Nat) {es : List Event}
    (h : runFrom lineStep (initialLines connections) es = .ok ls) :
    ((∃ w, runFrom step (initial connections) es = .ok w ∧
        w.streams.map Stream.taken = ls.map (fun l => l.taken.map some)) ↔
      Along lineStep Prompt (initialLines connections) es) ∧
    ∀ l ∈ ls, l.taken <+: l.written ∧
      (l.closed = false → l.written = l.taken ++ (l.queue.map Prod.snd).flatten) := by
  refine ⟨⟨fun ⟨w, hw, _⟩ => ((returns_iff connections es).mp ⟨w, hw⟩).2, fun halong => ?_⟩, ?_⟩
  · obtain ⟨w, hw⟩ := (returns_iff connections es).mpr ⟨⟨ls, h⟩, halong⟩
    exact ⟨w, hw, taken_eq connections hw h⟩
  · intro l hl
    obtain ⟨lost, hwritten, hlost⟩ := fifo_run connections h l hl
    constructor
    · exact ⟨(l.queue.map Prod.snd).flatten ++ lost, by rw [hwritten, List.append_assoc]⟩
    · intro hopen
      rw [hwritten, hlost hopen, List.append_nil]

/-- An `INTERESTED` that the kernel does not take at once. -/
theorem sends_delivered_late :
    ¬ ∃ w, runFrom step (initial 1)
        [.connect 0 zeroDigest (List.replicate 20 0) 68, .interested 0 0, .flush 0 5] = .ok w ∧
      w.streams.map Stream.taken =
        [((Conn.handshakeBytes zeroDigest (List.replicate 20 0)) ++
          createInterestedMessage.bytes).map some] := by
  intro hrun
  have hlines := sends_delivered 1 (show runFrom lineStep (initialLines 1)
    [.connect 0 zeroDigest (List.replicate 20 0) 68, .interested 0 0, .flush 0 5] = .ok _ from rfl)
  have halong := hlines.1.mp hrun
  have hzero := ((halong.2 _ rfl).2 _ rfl).1 _ _ _ rfl rfl
  exact absurd hzero (by decide)

/-! ## Runs that end with everything written out -/

/-- A `REQUEST` or an `INTERESTED` finds nothing waiting, and is taken as a whole. -/
def Whole (ls : List Line) : Event → Prop
  | .request k index offset length n => ∀ l, ls[k]? = some l → l.closed = false →
      l.queue = [] ∧ (createRequestMessage index offset length).bytes.length ≤ n
  | .interested k n => ∀ l, ls[k]? = some l → l.closed = false →
      l.queue = [] ∧ createInterestedMessage.bytes.length ≤ n
  | _ => True

/-- All messages that wait on the line are copied. -/
def Line.Copied (l : Line) : Prop := ∀ m ∈ l.queue, m.1 = false

/-- A message that is not copied waits on the line. -/
def Line.Exposed (l : Line) : Prop := ∃ bytes, (true, bytes) ∈ l.queue ∧ bytes ≠ []

theorem Line.Copied.flush (hl : l.Copied) (n : Nat) : (l.flush n).Copied := by
  unfold Line.flush
  split
  · exact hl
  · rename_i b bytes rest hq
    intro m hm
    have hall : ∀ m ∈ (b, bytes) :: rest, m.1 = false := hq ▸ hl
    split_ifs at hm
    · exact hall m (List.mem_cons_of_mem _ hm)
    · rcases List.mem_cons.mp hm with rfl | hm
      · exact hall (b, bytes) List.mem_cons_self
      · exact hall m (List.mem_cons_of_mem _ hm)

theorem Line.Copied.write (hl : l.Copied) (bytes : List UInt8) (n : Nat) :
    (l.write false bytes n).Copied := by
  have hadd : Line.Copied { l with
      queue := l.queue ++ [(false, bytes)], written := l.written ++ bytes } := by
    intro m hm
    rcases List.mem_append.mp hm with hold | hnew
    · exact hl m hold
    · rw [List.mem_singleton.mp hnew]
  unfold Line.write
  split_ifs
  · exact hl
  · exact hadd.flush n
  · exact hadd

theorem Line.Copied.write_whole (hl : l.Copied)
    (hwhole : l.closed = false → l.queue = [] ∧ bytes.length ≤ n) :
    (l.write true bytes n).Copied := by
  unfold Line.write
  by_cases hclosed : l.closed = true
  · rw [if_pos hclosed]
    exact hl
  · obtain ⟨hq, hn⟩ := hwhole (Bool.eq_false_iff.mpr hclosed)
    rw [if_neg hclosed, if_pos hq]
    unfold Line.flush Line.Copied
    simp only [hq, List.nil_append, if_pos hn]
    exact fun m hm => absurd hm List.not_mem_nil

theorem Line.Exposed.flush (hl : l.Exposed) {n : Nat}
    (hprompt : ∀ bytes rest, l.queue = (true, bytes) :: rest → n = 0) : (l.flush n).Exposed := by
  obtain ⟨bytes, hmem, hne⟩ := hl
  unfold Line.flush
  split
  · exact ⟨bytes, hmem, hne⟩
  · rename_i b bytes' rest hq
    rw [hq] at hmem
    refine ⟨bytes, ?_, hne⟩
    change (true, bytes) ∈ if _ then _ else _
    rcases List.mem_cons.mp hmem with heq | hrest
    · obtain ⟨rfl, rfl⟩ : true = b ∧ bytes = bytes' := by simpa using heq
      have hzero := hprompt bytes rest hq
      rw [hzero, if_neg (Nat.not_le_of_lt (List.length_pos_iff.mpr hne)), List.drop_zero]
      exact List.mem_cons_self
    · split_ifs
      · exact hrest
      · exact List.mem_cons_of_mem _ hrest

theorem Line.Exposed.write (hl : l.Exposed) (b : Bool) (bytes : List UInt8) (n : Nat) :
    (l.write b bytes n).Exposed := by
  obtain ⟨bytes', hmem, hne⟩ := hl
  unfold Line.write
  split_ifs with hclosed hq
  · exact ⟨bytes', hmem, hne⟩
  · rw [hq] at hmem
    exact absurd hmem List.not_mem_nil
  · exact ⟨bytes', List.mem_append_left _ hmem, hne⟩

/-- A message that is not taken as a whole waits. -/
theorem exposed_write (hopen : l.closed = false) (hbytes : bytes ≠ [])
    (hwhole : ¬ (l.queue = [] ∧ bytes.length ≤ n)) : (l.write true bytes n).Exposed := by
  unfold Line.write
  rw [if_neg (by rw [hopen]; decide)]
  by_cases hq : l.queue = []
  · have hn : ¬ bytes.length ≤ n := fun hle => hwhole ⟨hq, hle⟩
    rw [if_pos hq]
    unfold Line.flush
    simp only [hq, List.nil_append, if_neg hn]
    refine ⟨bytes.drop n, List.mem_cons_self, fun hnil => hn (List.drop_eq_nil_iff.mp hnil)⟩
  · rw [if_neg hq]
    exact ⟨bytes, List.mem_append_right _ List.mem_cons_self, hbytes⟩

theorem exposed_set (hline : ls[k]? = some l) (hl : l.Exposed → l'.Exposed)
    (h : ∃ l ∈ ls, l.Exposed) : ∃ l ∈ ls.set k l', l.Exposed := by
  obtain ⟨m, hm, hexposed⟩ := h
  obtain ⟨j, hj⟩ := List.mem_iff_getElem?.mp hm
  by_cases hjk : k = j
  · subst hjk
    obtain rfl := Option.some.inj (hj.symm.trans hline)
    exact ⟨l', List.mem_set (List.getElem?_eq_some_iff.mp hline).1 _, hl hexposed⟩
  · refine ⟨m, List.mem_iff_getElem?.mpr ⟨j, ?_⟩, hexposed⟩
    rw [List.getElem?_set_ne hjk, hj]

theorem exposed_haveLine (this : Nat) (answers : List Nat) (i : Nat) (h : ∃ l ∈ ls, l.Exposed) :
    ∃ l ∈ haveLine this bytes answers ls i, l.Exposed := by
  unfold haveLine
  split
  · rename_i l hline
    split_ifs
    · exact exposed_set hline (fun hl => hl.write _ _ _) h
    · exact h
  · exact h

theorem copied_haveLine (this : Nat) (answers : List Nat) (i : Nat) (h : ∀ l ∈ ls, l.Copied) :
    ∀ l ∈ haveLine this bytes answers ls i, l.Copied := by
  unfold haveLine
  split
  · rename_i l hline
    split_ifs
    · exact forall_set h ((h l (List.mem_of_getElem? hline)).write _ _)
    · exact h
  · exact h

/-- An exposed message stays where it is until a byte of it is read. -/
theorem exposed_step {e : Event} (h : ∃ l ∈ ls, l.Exposed) (hprompt : Prompt ls e)
    (hopen : ∀ k, e ≠ .close k) (hstep : lineStep ls e = .ok ls') : ∃ l ∈ ls', l.Exposed := by
  have hmessage : ∀ {k bytes n}, writeLine ls k bytes n = .ok ls' → ∃ l ∈ ls', l.Exposed := by
    intro k bytes n hwrite
    unfold writeLine at hwrite
    split at hwrite
    · rename_i l hline
      split_ifs at hwrite
      obtain rfl := Except.ok.inj hwrite
      exact exposed_set hline (fun hl => hl.write _ _ _) h
    · exact absurd hwrite (by simp)
  cases e with
  | connect k infoHash peerId n =>
    cases hline : ls[k]? with
    | none => exact absurd hstep (by simp [lineStep, hline])
    | some l =>
      obtain rfl := Except.ok.inj ((lineStep_connect hline).symm.trans hstep)
      refine exposed_set hline (fun hl => ?_) h
      exact Line.Exposed.write (l := { l with connected := true }) hl _ _ _
  | request k index offset length n => exact hmessage hstep
  | interested k n => exact hmessage hstep
  | «have» this index answers =>
    obtain rfl := Except.ok.inj hstep
    have hloop : ∀ (is : List Nat) (ls : List Line), (∃ l ∈ ls, l.Exposed) →
        ∃ l ∈ is.foldl (haveLine this (createHaveMessage index).bytes answers) ls, l.Exposed := by
      intro is
      induction is with
      | nil => exact fun _ h => h
      | cons i is ih => exact fun ls h => ih _ (exposed_haveLine this answers i h)
    exact hloop _ ls h
  | flush k n =>
    obtain rfl := Except.ok.inj hstep
    rw [List.modify_eq_set_getElem?]
    cases hline : ls[k]? with
    | none => exact h
    | some l =>
      exact exposed_set hline (fun hl => hl.flush fun bytes rest => hprompt l bytes rest hline) h
  | callback k =>
    obtain rfl := Except.ok.inj hstep
    exact h
  | close k => exact absurd rfl (hopen k)

/-- A message that is not taken as a whole is exposed. -/
theorem exposed_of_not_whole {e : Event} (hwhole : ¬ Whole ls e) (hstep : lineStep ls e = .ok ls') :
    ∃ l ∈ ls', l.Exposed := by
  have hmessage : ∀ {k bytes n}, bytes ≠ [] → writeLine ls k bytes n = .ok ls' →
      (¬ ∀ l, ls[k]? = some l → l.closed = false → l.queue = [] ∧ bytes.length ≤ n) →
      ∃ l ∈ ls', l.Exposed := by
    intro k bytes n hbytes hwrite hnot
    unfold writeLine at hwrite
    split at hwrite
    · rename_i l hline
      split_ifs at hwrite
      obtain rfl := Except.ok.inj hwrite
      refine ⟨_, List.mem_set (List.getElem?_eq_some_iff.mp hline).1 _, ?_⟩
      by_cases hopen : l.closed = false
      · refine exposed_write hopen hbytes fun hand => hnot fun l' hline' _ => ?_
        obtain rfl := Option.some.inj (hline.symm.trans hline')
        exact hand
      · refine absurd (fun l' hline' hopen' => ?_) hnot
        obtain rfl := Option.some.inj (hline.symm.trans hline')
        exact absurd hopen' hopen
    · exact absurd hwrite (by simp)
  cases e with
  | request k index offset length n =>
    exact hmessage (requestBytes_ne_nil index offset length) hstep hwhole
  | interested k n => exact hmessage interestedBytes_ne_nil hstep hwhole
  | connect k infoHash peerId n => exact absurd trivial hwhole
  | «have» this index answers => exact absurd trivial hwhole
  | flush k n => exact absurd trivial hwhole
  | callback k => exact absurd trivial hwhole
  | close k => exact absurd trivial hwhole

/-- A step in which each `REQUEST` and `INTERESTED` is taken as a whole leaves only messages that
are copied waiting. -/
theorem copied_step {e : Event} (h : ∀ l ∈ ls, l.Copied) (hwhole : Whole ls e)
    (hstep : lineStep ls e = .ok ls') : ∀ l ∈ ls', l.Copied := by
  have hmessage : ∀ {k bytes n}, writeLine ls k bytes n = .ok ls' →
      (∀ l, ls[k]? = some l → l.closed = false → l.queue = [] ∧ bytes.length ≤ n) →
      ∀ l ∈ ls', l.Copied := by
    intro k bytes n hwrite hall
    unfold writeLine at hwrite
    split at hwrite
    · rename_i l hline
      split_ifs at hwrite
      obtain rfl := Except.ok.inj hwrite
      exact forall_set h ((h l (List.mem_of_getElem? hline)).write_whole (hall l hline))
    · exact absurd hwrite (by simp)
  cases e with
  | connect k infoHash peerId n =>
    cases hline : ls[k]? with
    | none => exact absurd hstep (by simp [lineStep, hline])
    | some l =>
      obtain rfl := Except.ok.inj ((lineStep_connect hline).symm.trans hstep)
      have hl : Line.Copied { l with connected := true } := h l (List.mem_of_getElem? hline)
      exact forall_set h (hl.write _ _)
  | request k index offset length n => exact hmessage hstep hwhole
  | interested k n => exact hmessage hstep hwhole
  | «have» this index answers =>
    obtain rfl := Except.ok.inj hstep
    have hloop : ∀ (is : List Nat) (ls : List Line), (∀ l ∈ ls, l.Copied) →
        ∀ l ∈ is.foldl (haveLine this (createHaveMessage index).bytes answers) ls, l.Copied := by
      intro is
      induction is with
      | nil => exact fun _ h => h
      | cons i is ih => exact fun ls h => ih _ (copied_haveLine this answers i h)
    exact hloop _ ls h
  | flush k n =>
    obtain rfl := Except.ok.inj hstep
    exact forall_modify h fun l hl => hl.flush n
  | callback k =>
    obtain rfl := Except.ok.inj hstep
    exact h
  | close k =>
    obtain rfl := Except.ok.inj hstep
    exact forall_modify h fun l _ m hm => absurd hm List.not_mem_nil

theorem prompt_of_copied {e : Event} (h : ∀ l ∈ ls, l.Copied) : Prompt ls e := by
  cases e with
  | flush k n =>
    intro l bytes rest hline hq
    have hm := h l (List.mem_of_getElem? hline) (true, bytes) (hq ▸ List.mem_cons_self)
    exact absurd hm (by simp)
  | connect k infoHash peerId n => trivial
  | request k index offset length n => trivial
  | interested k n => trivial
  | «have» this index answers => trivial
  | callback k => trivial
  | close k => trivial

/-- An exposed message waits to the end of a prompt run. -/
theorem exposed_run {es : List Event} (h : ∃ l ∈ ls, l.Exposed)
    (hprompt : Along lineStep Prompt ls es) (hopen : ∀ k, Event.close k ∉ es)
    (hrun : runFrom lineStep ls es = .ok ls') : ∃ l ∈ ls', l.Exposed := by
  induction es generalizing ls with
  | nil =>
    obtain rfl := Except.ok.inj hrun
    exact h
  | cons e es ih =>
    obtain ⟨t, ht, hrest⟩ := runFrom_cons.mp hrun
    have hne : ∀ k, e ≠ .close k := fun k heq => hopen k (heq ▸ List.mem_cons_self)
    exact ih (exposed_step h hprompt.1 hne ht) (hprompt.2 t ht)
      (fun k hmem => hopen k (List.mem_cons_of_mem e hmem)) hrest

/-- **Where everything is written out in the end, a run is prompt exactly if every `REQUEST` and
`INTERESTED` is taken as a whole.** -/
theorem prompt_iff_whole {es : List Event} (h : ∀ l ∈ ls, l.Copied)
    (hopen : ∀ k, Event.close k ∉ es) (hrun : runFrom lineStep ls es = .ok ls')
    (hdrained : ∀ l ∈ ls', l.queue = []) :
    Along lineStep Prompt ls es ↔ Along lineStep Whole ls es := by
  induction es generalizing ls with
  | nil => exact Iff.rfl
  | cons e es ih =>
    obtain ⟨t, ht, hrest⟩ := runFrom_cons.mp hrun
    have hopen' : ∀ k, Event.close k ∉ es := fun k hmem => hopen k (List.mem_cons_of_mem e hmem)
    rw [along_cons ht, along_cons ht]
    by_cases hwhole : Whole ls e
    · rw [ih (copied_step h hwhole ht) hopen' hrest]
      exact and_congr_left' (iff_of_true (prompt_of_copied h) hwhole)
    · refine iff_of_false (fun hand => ?_) fun hand => hwhole hand.1
      obtain ⟨l, hl, bytes, hmem, -⟩ :=
        exposed_run (exposed_of_not_whole hwhole ht) hand.2 hopen' hrest
      rw [hdrained l hl] at hmem
      exact absurd hmem List.not_mem_nil

/-- **Of a run in which no connection is closed, and everything is written out in the end, no step
uses freed memory exactly if every `REQUEST` and `INTERESTED` finds nothing waiting on its
connection and is taken as a whole.** -/
theorem drained_iff (connections : Nat) {es : List Event} (hopen : ∀ k, Event.close k ∉ es)
    (h : runFrom lineStep (initialLines connections) es = .ok ls)
    (hdrained : ∀ l ∈ ls, l.queue = []) :
    (∃ w, runFrom step (initial connections) es = .ok w) ↔
      Along lineStep Whole (initialLines connections) es := by
  have hcopied : ∀ l ∈ initialLines connections, l.Copied := by
    intro l hl m hm
    rw [List.eq_of_mem_replicate hl] at hm
    exact absurd hm List.not_mem_nil
  rw [returns_iff, and_iff_right ⟨ls, h⟩]
  exact prompt_iff_whole hcopied hopen h hdrained

/-- An `INTERESTED` that the kernel takes whole. -/
theorem drained_iff_whole :
    ∃ w, runFrom step (initial 1)
      [.connect 0 zeroDigest (List.replicate 20 0) 68, .interested 0 5] = .ok w := by
  have hrun : runFrom lineStep (initialLines 1)
    [.connect 0 zeroDigest (List.replicate 20 0) 68, .interested 0 5] = .ok [_] := rfl
  refine (drained_iff 1 (fun k hk => ?_) hrun fun l hl => ?_).mpr ?_
  · simp at hk
  · rw [List.mem_singleton.mp hl]
    rfl
  · refine (along_cons rfl).mpr ⟨trivial, (along_cons rfl).mpr ⟨fun l hline _ => ?_, trivial⟩⟩
    obtain rfl := Option.some.inj hline
    exact ⟨rfl, by decide⟩

end CometBt.Sends
