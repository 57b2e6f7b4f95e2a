import CometBt.Memory.Sends

/-!
# A step of the sends

* `Rel`: the streams do what the lines do, the blocks that the callbacks free are there once, and
  there are so many others.
* `step_related`, `step_back`: a step does with the streams what it does with the lines if no byte
  of a `REQUEST` or an `INTERESTED` is read after the call that wrote it, and uses freed memory if
  one is.
-/

namespace CometBt.Sends

open Lib

variable {w w' : World} {h g : Heap UInt8} {st : Stream} {l : Line} {ls ls' : List Line}
  {wr : Write} {rest : List Write} {cells : Cells UInt8} {bytes : List UInt8} {b : Bool}
  {k n c : Nat}

/-- The heap `g` has the blocks at `as` as they are in `h`, and none that `h` has no more. -/
structure Keeps (h g : Heap UInt8) (as : List Nat) : Prop where
  next : h.next ≤ g.next
  same : ∀ a ∈ as, g.get a = h.get a
  dead : ∀ a, a < h.next → h.get a = none → g.get a = none

theorem Waits.keep {m : Bool × List UInt8} {as : List Nat} (hw : Waits h wr m)
    (hkeep : Keeps h g as) (hmem : wr.cb ≠ .writeCb → wr.base ∈ as) : Waits g wr m where
  borrowed := hw.borrowed
  len := hw.len
  nonempty := hw.nonempty
  bytes := fun hb => by
    have hcb : wr.cb ≠ .writeCb := fun hcb => by
      rw [hw.borrowed.mpr hcb] at hb
      exact absurd hb (by decide)
    rw [hkeep.same _ (hmem hcb)]
    exact hw.bytes hb
  freed := fun hb =>
    have hfreed := hw.freed hb
    ⟨Nat.lt_of_lt_of_le hfreed.1 hkeep.next, hkeep.dead _ hfreed.1 hfreed.2⟩

theorem base_mem_owns (hcb : wr.cb ≠ .writeCb) : wr.base ∈ wr.owns := by
  unfold Write.owns
  rw [if_neg hcb]
  exact List.mem_cons_self

theorem mem_holds {a : Nat} (hwr : wr ∈ st.queue) (ha : a ∈ wr.owns) : a ∈ st.holds :=
  List.mem_flatMap.mpr ⟨wr, List.mem_append_left _ hwr, ha⟩

theorem LineRel.keep {as : List Nat} (hrel : LineRel h st l) (hkeep : Keeps h g as)
    (hmem : ∀ a ∈ st.holds, a ∈ as) : LineRel g st l := by
  refine ⟨hrel.connected, hrel.closed, hrel.taken, ?_⟩
  refine List.Forall₂.imp (fun _ _ hw => hw) ?_
  have hall : List.Forall₂ (fun wr m => wr ∈ st.queue ∧ Waits h wr m) st.queue l.queue := by
    refine List.forall₂_iff_get.mpr ⟨hrel.queue.length_eq, fun i hi hi' => ?_⟩
    exact ⟨List.get_mem _ _, (List.forall₂_iff_get.mp hrel.queue).2 i hi hi'⟩
  exact hall.imp fun wr m hw => hw.2.keep hkeep fun hcb =>
    hmem _ (mem_holds hw.1 (base_mem_owns hcb))

/-- The blocks that the callbacks of all streams free. -/
def held (streams : List Stream) : List Nat := streams.flatMap Stream.holds

variable {streams : List Stream} {st' : Stream} {l' : Line} {as : List Nat}

/-- One stream, and the others. -/
theorem held_split (hst : streams[k]? = some st) :
    ∃ others, (held streams).Perm (st.holds ++ others) ∧
      ∀ st', (held (streams.set k st')).Perm (st'.holds ++ others) := by
  obtain ⟨hlt, hat⟩ := List.getElem?_eq_some_iff.mp hst
  refine ⟨held (streams.take k) ++ held (streams.drop (k + 1)), ?_, fun st' => ?_⟩
  · have hsplit : streams = streams.take k ++ st :: streams.drop (k + 1) := by
      rw [← hat, List.getElem_cons_drop, List.take_append_drop]
    have heq : held streams =
        held (streams.take k) ++ (st.holds ++ held (streams.drop (k + 1))) := by
      conv_lhs => rw [hsplit]
      unfold held
      rw [List.flatMap_append, List.flatMap_cons]
    rw [heq, ← List.append_assoc, ← List.append_assoc]
    exact List.perm_append_comm.append_right _
  · have heq : held (streams.set k st') =
        held (streams.take k) ++ (st'.holds ++ held (streams.drop (k + 1))) := by
      unfold held
      rw [List.set_eq_take_append_cons_drop, if_pos hlt, List.flatMap_append, List.flatMap_cons]
    rw [heq, ← List.append_assoc, ← List.append_assoc]
    exact List.perm_append_comm.append_right _

/-- The streams do what the lines do. -/
structure Lines (h : Heap UInt8) (streams : List Stream) (ls : List Line) : Prop where
  length : streams.length = ls.length
  rel : ∀ {k : Nat} {st : Stream} {l : Line}, streams[k]? = some st → ls[k]? = some l →
    LineRel h st l

/-- The streams do what the lines do, the blocks that callbacks free are there once, and `c` others
are there. -/
structure Rel (w : World) (ls : List Line) (c : Nat) : Prop where
  books : w.heap.Books (held w.streams) c
  lines : Lines w.heap w.streams ls

theorem Lines.get (hl : Lines h streams ls) (hst : streams[k]? = some st) :
    ∃ l, ls[k]? = some l ∧ LineRel h st l := by
  have hlt : k < ls.length := hl.length ▸ (List.getElem?_eq_some_iff.mp hst).1
  exact ⟨ls[k], List.getElem?_eq_getElem hlt, hl.rel hst (List.getElem?_eq_getElem hlt)⟩

theorem Lines.get_line (hl : Lines h streams ls) (hline : ls[k]? = some l) :
    ∃ st, streams[k]? = some st ∧ LineRel h st l := by
  have hlt : k < streams.length := hl.length ▸ (List.getElem?_eq_some_iff.mp hline).1
  exact ⟨streams[k], List.getElem?_eq_getElem hlt, hl.rel (List.getElem?_eq_getElem hlt) hline⟩

theorem Lines.set (hl : Lines h streams ls) (hrel : LineRel h st' l') :
    Lines h (streams.set k st') (ls.set k l') := by
  refine ⟨by rw [List.length_set, List.length_set, hl.length], fun {j st l} hst hline => ?_⟩
  rw [List.getElem?_set] at hst hline
  by_cases hjk : k = j
  · rw [if_pos hjk] at hst hline
    split_ifs at hst hline
    rw [← Option.some.inj hst, ← Option.some.inj hline]
    exact hrel
  · rw [if_neg hjk] at hst hline
    exact hl.rel hst hline

theorem Lines.keep (hl : Lines h streams ls) (hkeep : Keeps h g (held streams)) :
    Lines g streams ls :=
  ⟨hl.length, fun hst hline => (hl.rel hst hline).keep hkeep fun _ ha =>
    List.mem_flatMap.mpr ⟨_, List.mem_of_getElem? hst, ha⟩⟩

theorem advance_holds (hq : st.queue = wr :: rest) (m : Nat) :
    (st.advance wr rest cells m).holds.Perm st.holds := by
  unfold Stream.advance Stream.holds
  split_ifs
  · refine List.Perm.flatMap_right _ ?_
    rw [hq, List.cons_append, ← List.append_assoc]
    exact List.perm_append_singleton wr (rest ++ st.finished)
  · rw [hq]
    exact List.Perm.refl _

theorem put_holds : (st.put wr cells n).holds.Perm (wr.owns ++ st.holds) := by
  have hadd : ({ st with queue := st.queue ++ [wr] } : Stream).holds.Perm
      (wr.owns ++ st.holds) := by
    unfold Stream.holds
    rw [← List.flatMap_cons]
    refine List.Perm.flatMap_right _ ?_
    rw [List.append_assoc]
    exact List.perm_middle
  by_cases hput : st.queue = [] ∧ min n (wr.len - wr.done) ≠ 0
  · rw [put_advance hput.1 hput.2]
    refine (advance_holds ?_ _).trans hadd
    change st.queue ++ [wr] = _
    rw [hput.1]
    rfl
  · rw [put_waiting fun hq => by_contra fun hm => hput ⟨hq, hm⟩]
    exact hadd

/-! ## The blocks of a send -/

/-- The heap `g` has the three blocks of the write `wr`, and nothing else that `h` has not. -/
structure Issued (h g : Heap UInt8) (wr : Write) (bytes : List UInt8) : Prop where
  next : h.next ≤ g.next
  fresh : h.next ≤ wr.base
  same : ∀ a, a < h.next → g.get a = h.get a
  get : g.get wr.base = some (bytes.map some)
  len : wr.len = bytes.length
  start : wr.done = 0
  books : ∀ as c, h.Books as c → g.Books (wr.base :: wr.buf :: wr.req :: as) c

theorem three_mallocs (h : Heap UInt8) (xs ys zs : Cells UInt8) :
    (((h.malloc xs).malloc ys).malloc zs).next = h.next + 3 ∧
      ∀ a, a < h.next → (((h.malloc xs).malloc ys).malloc zs).get a = h.get a := by
  constructor
  · rw [Heap.next_malloc, Heap.next_malloc, Heap.next_malloc]
  · intro a ha
    rw [Heap.get_malloc_lt (by rw [Heap.next_malloc, Heap.next_malloc]; omega),
      Heap.get_malloc_lt (by rw [Heap.next_malloc]; omega), Heap.get_malloc_lt ha]

theorem issued_message (h : Heap UInt8) (bytes : List UInt8) :
    Issued h (newMessage h bytes).1 (newMessage h bytes).2 bytes := by
  obtain ⟨hnext, hsame⟩ := three_mallocs h (bytes.map some) [] []
  have hget : ((h.malloc (bytes.map some)).malloc []).get h.next = some (bytes.map some) := by
    rw [Heap.get_malloc_lt (by rw [Heap.next_malloc]; exact Nat.lt_succ_self _),
      Heap.get_malloc_self]
  refine ⟨?_, Nat.le_refl _, hsame, ?_, rfl, rfl, fun as c hb => ?_⟩
  · exact hnext ▸ Nat.le_add_right _ _
  · refine (Heap.get_malloc_lt ?_).trans hget
    rw [Heap.next_malloc, Heap.next_malloc]
    exact Nat.lt_add_of_pos_right (Nat.zero_lt_succ 1)
  · have hbooks := ((hb.malloc (bytes.map some)).malloc []).malloc []
    rw [Heap.next_malloc, Heap.next_malloc] at hbooks
    refine hbooks.perm ?_
    -- `buf`, `req`, `base`
    exact (List.Perm.cons _ (List.Perm.swap _ _ _)).trans
      ((List.Perm.swap _ _ _).trans (List.Perm.refl _))

theorem issued_handshake (h : Heap UInt8) (bytes : List UInt8) :
    Issued h (newHandshake h bytes).1 (newHandshake h bytes).2 bytes := by
  obtain ⟨hnext, hsame⟩ := three_mallocs h [] (bytes.map some) []
  refine ⟨?_, Nat.le_succ _, hsame, ?_, rfl, rfl, fun as c hb => ?_⟩
  · exact hnext ▸ Nat.le_add_right _ _
  · refine (Heap.get_malloc_lt ?_).trans ?_
    · rw [Heap.next_malloc, Heap.next_malloc]
      exact Nat.lt_succ_self _
    · have hself : ((h.malloc []).malloc (bytes.map some)).get (h.malloc []).next =
          some (bytes.map some) := Heap.get_malloc_self
      rw [Heap.next_malloc] at hself
      exact hself
  · have hbooks := ((hb.malloc []).malloc (bytes.map some)).malloc []
    rw [Heap.next_malloc, Heap.next_malloc] at hbooks
    refine hbooks.perm ?_
    -- `req`, `base`, `buf`
    exact (List.Perm.swap _ _ _).trans (List.Perm.cons _ (List.Perm.swap _ _ _))

theorem issued_have (h : Heap UInt8) (bytes : List UInt8) :
    Issued h (newHave h bytes).1 (newHave h bytes).2 bytes := by
  obtain ⟨hnext, hsame⟩ := three_mallocs h [] [] (bytes.map some)
  refine ⟨?_, Nat.le_add_right _ _, hsame, ?_, rfl, rfl, fun as c hb => ?_⟩
  · exact hnext ▸ Nat.le_add_right _ _
  · have hself : (((h.malloc []).malloc []).malloc (bytes.map some)).get
        ((h.malloc []).malloc []).next = some (bytes.map some) := Heap.get_malloc_self
    rw [Heap.next_malloc, Heap.next_malloc] at hself
    exact hself
  · have hbooks := ((hb.malloc []).malloc []).malloc (bytes.map some)
    rw [Heap.next_malloc, Heap.next_malloc] at hbooks
    exact hbooks

theorem Issued.keeps (hi : Issued h g wr bytes) (hb : h.Books as c) : Keeps h g as :=
  ⟨hi.next, fun a ha => hi.same a (hb.lt_next ha), fun a ha hget => (hi.same a ha).trans hget⟩

/-- The heap after the message has been freed. -/
theorem Issued.keeps_free (hi : Issued h g wr bytes) (hb : h.Books as c) :
    Keeps h (g.put wr.base none) as := by
  have hne : ∀ a, a < h.next → wr.base ≠ a := fun a ha heq =>
    absurd (heq ▸ hi.fresh) (Nat.not_le_of_lt ha)
  refine ⟨by rw [Heap.next_put]; exact hi.next, fun a ha => ?_, fun a ha hget => ?_⟩
  · rw [Heap.get_put_ne (hne a (hb.lt_next ha)), hi.same a (hb.lt_next ha)]
  · rw [Heap.get_put_ne (hne a ha), hi.same a ha, hget]

theorem write_closed (hclosed : l.closed = true) (hline : ls[k]? = some l) :
    ls.set k (l.write b bytes n) = ls := by
  have hwrite : l.write b bytes n = l := if_pos hclosed
  obtain ⟨hlt, hat⟩ := List.getElem?_eq_some_iff.mp hline
  rw [hwrite, ← hat, List.set_getElem_self]

/-- The number of blocks that stay if the stream is closed. -/
def lostIf (closed : Bool) (n : Nat) : Nat := if closed then n else 0

/-- What `uv_write` does with a message of its own. -/
theorem uvWrite_owned (hrel : Rel w ls c) (hi : Issued w.heap g wr bytes)
    (hcb : wr.cb ≠ .writeCb) (hbytes : bytes ≠ []) (hst : w.streams[k]? = some st)
    (hline : ls[k]? = some l) (hconn : st.connected = true) :
    ∃ st', uvWrite ⟨g, w.streams⟩ k wr n = .ok ⟨g, w.streams.set k st'⟩ ∧
      st'.connected = st.connected ∧ st'.closed = st.closed ∧
      Rel ⟨g, w.streams.set k st'⟩ (ls.set k (l.write false bytes n))
        (c + lostIf st.closed 3) := by
  have hlines := hrel.lines.keep (hi.keeps hrel.books)
  have hl := hlines.rel hst hline
  have hbooks := hi.books _ _ hrel.books
  have howns : wr.owns = [wr.base, wr.buf, wr.req] := if_neg hcb
  by_cases hclosed : st.closed = true
  · obtain ⟨hlt, hat⟩ := List.getElem?_eq_some_iff.mp hst
    have hset : w.streams.set k st = w.streams := by rw [← hat, List.set_getElem_self]
    refine ⟨st, ?_, rfl, rfl, ?_⟩
    · rw [hset]
      exact uvWrite_closed (w := ⟨g, w.streams⟩) hst hconn hclosed
    · rw [hset, write_closed (hl.closed.symm.trans hclosed) hline, hclosed]
      have hall : g.Books ([wr.base, wr.buf, wr.req] ++ held w.streams) c := hbooks
      exact ⟨hall.lose, hlines⟩
  · have hopen : st.closed = false := Bool.eq_false_iff.mpr hclosed
    have hlen : (bytes.map some).length = wr.len := by rw [List.length_map, hi.len]
    have hw : Waits g wr (false, bytes) := by
      refine ⟨iff_of_false (by simp) hcb, ?_, hbytes, fun _ => ?_, fun hb => absurd hb (by simp)⟩
      · rw [hi.start, hi.len, Nat.zero_add]
      · exact ⟨_, hi.get, hlen, by rw [hi.start]; rfl⟩
    refine ⟨st.put wr (bytes.map some) n, ?_, ?_, ?_, ?_, ?_⟩
    · exact uvWrite_eq (w := ⟨g, w.streams⟩) hst hconn hopen hi.get hlen
    · unfold Stream.put Stream.advance
      split_ifs <;> rfl
    · unfold Stream.put Stream.advance
      split_ifs <;> rfl
    · obtain ⟨others, hbefore, hafter⟩ := held_split hst
      rw [hopen]
      refine hbooks.perm ?_
      refine List.Perm.trans ?_ ((hafter _).trans (put_holds.append_right others)).symm
      rw [howns, List.append_assoc]
      exact hbefore.append_left [wr.base, wr.buf, wr.req]
    · exact hlines.set (hl.put hopen hw (by rw [hi.start]; rfl))

/-- What a send of a message does that is freed where the call returns. -/
theorem sendMessage_related (hrel : Rel w ls c) (hbytes : bytes ≠ [])
    (hst : w.streams[k]? = some st) (hline : ls[k]? = some l) (hconn : st.connected = true) :
    ∃ w', sendMessage w k bytes n = .ok w' ∧
      Rel w' (ls.set k (l.write true bytes n)) (c + lostIf st.closed 2) := by
  have hi := issued_message w.heap bytes
  have hcb : (newMessage w.heap bytes).2.cb = .writeCb := rfl
  revert hi hcb
  generalize hnew : newMessage w.heap bytes = r
  obtain ⟨g, wr⟩ := r
  intro hi hcb
  have hlines := hrel.lines.keep (hi.keeps_free hrel.books)
  have hl := hlines.rel hst hline
  have hbooks := hi.books _ _ hrel.books
  have howns : wr.owns = [wr.buf, wr.req] := if_pos hcb
  have hsend : sendMessage w k bytes n =
      (uvWrite ⟨g, w.streams⟩ k wr n >>= fun w => free w wr.base) := by
    unfold sendMessage
    rw [hnew]
  have hfree : ∀ streams : List Stream, free ⟨g, streams⟩ wr.base =
      .ok ⟨g.put wr.base none, streams⟩ := by
    intro streams
    unfold free
    rw [Heap.free_to hi.get]
    rfl
  by_cases hclosed : st.closed = true
  · refine ⟨⟨g.put wr.base none, w.streams⟩, ?_, ?_⟩
    · rw [hsend, uvWrite_closed (w := ⟨g, w.streams⟩) hst hconn hclosed, ok_bind, hfree]
    · rw [write_closed (hl.closed.symm.trans hclosed) hline, hclosed]
      have hall : (g.put wr.base none).Books ([wr.buf, wr.req] ++ held w.streams) c := hbooks.free
      exact ⟨hall.lose, hlines⟩
  · have hopen : st.closed = false := Bool.eq_false_iff.mpr hclosed
    have hlen : (bytes.map some).length = wr.len := by rw [List.length_map, hi.len]
    have hlt : wr.base < g.next := Heap.lt_next hi.get
    have hw : Waits (g.put wr.base none) wr (true, bytes) := by
      refine ⟨iff_of_true rfl hcb, ?_, hbytes, fun hb => absurd hb (by simp), fun _ => ?_⟩
      · rw [hi.start, hi.len, Nat.zero_add]
      · exact ⟨by rw [Heap.next_put]; exact hlt, Heap.get_put_self hlt none⟩
    refine ⟨⟨g.put wr.base none, w.streams.set k (st.put wr (bytes.map some) n)⟩, ?_, ?_, ?_⟩
    · rw [hsend, uvWrite_eq (w := ⟨g, w.streams⟩) hst hconn hopen hi.get hlen, ok_bind]
      exact hfree _
    · obtain ⟨others, hbefore, hafter⟩ := held_split hst
      rw [hopen]
      refine hbooks.free.perm ?_
      refine List.Perm.trans ?_ ((hafter _).trans (put_holds.append_right others)).symm
      rw [howns, List.append_assoc]
      exact hbefore.append_left [wr.buf, wr.req]
    · exact hlines.set (hl.put hopen hw (by rw [hi.start]; rfl))

/-! ## A step -/

theorem requestBytes_ne_nil (index offset length : Int) :
    (createRequestMessage index offset length).bytes ≠ [] := by
  unfold ReqMessage.bytes
  simp

theorem interestedBytes_ne_nil : createInterestedMessage.bytes ≠ [] := by
  unfold InterestedMessage.bytes
  simp

theorem haveBytes_ne_nil (index : Int) : (createHaveMessage index).bytes ≠ [] := by
  unfold HaveMessage.bytes
  simp

/-- Whether the stream `k` is closed. -/
def closedAt (w : World) (k : Nat) : Bool := (w.streams[k]?.map Stream.closed).getD false

/-- Whether a `HAVE` of the connection `this` is not queued for the connection `i`. -/
def unsent (w : World) (this i : Nat) : Bool := !decide (Receives w this i) || closedAt w i

/-- The blocks that a step leaves to nobody. -/
def leaked (w : World) : Event → Nat
  | .connect k _ _ _ => lostIf (closedAt w k) 3
  | .request k _ _ _ _ => lostIf (closedAt w k) 2
  | .interested k _ => lostIf (closedAt w k) 2
  | .have this _ _ => 3 * (List.range w.streams.length).countP (unsent w this)
  | _ => 0

theorem closedAt_eq (hst : w.streams[k]? = some st) : closedAt w k = st.closed := by
  unfold closedAt
  rw [hst]
  rfl

/-- A message for a line that is connected. -/
theorem sendMessage_ok (hrel : Rel w ls c) (hbytes : bytes ≠ [])
    (h : writeLine ls k bytes n = .ok ls') :
    ∃ w', sendMessage w k bytes n = .ok w' ∧ Rel w' ls' (c + lostIf (closedAt w k) 2) := by
  unfold writeLine at h
  split at h
  · rename_i l hline
    obtain ⟨st, hst, hl⟩ := hrel.lines.get_line hline
    split_ifs at h with hconn
    obtain rfl := Except.ok.inj h
    rw [closedAt_eq hst]
    refine sendMessage_related hrel hbytes hst hline ?_
    rw [hl.connected]
    exact Bool.eq_true_of_not_eq_false hconn
  · exact absurd h (by simp)

/-- A message that is sent without a fault can be written to its line. -/
theorem sendMessage_back (hrel : Rel w ls c) (h : sendMessage w k bytes n = .ok w') :
    ∃ ls', writeLine ls k bytes n = .ok ls' := by
  unfold sendMessage at h
  obtain ⟨w₁, hwrite, -⟩ := bind_eq_ok.mp h
  unfold uvWrite at hwrite
  split at hwrite
  · rename_i st hst
    obtain ⟨l, hline, hl⟩ := hrel.lines.get hst
    unfold writeLine
    rw [hline]
    split_ifs at hwrite with hconn
    · refine ⟨_, if_neg ?_⟩
      rw [← hl.connected]
      exact hconn
    · refine ⟨_, if_neg ?_⟩
      rw [← hl.connected]
      exact hconn
    · refine ⟨_, if_neg ?_⟩
      rw [← hl.connected]
      exact hconn
  · exact absurd hwrite (by simp)

theorem connect_ok (hrel : Rel w ls c) {infoHash : Digest} {peerId : List UInt8}
    (hline : ls[k]? = some l) :
    ∃ w', connect w k infoHash peerId n = .ok w' ∧
      Rel w' (ls.set k (({ l with connected := true } : Line).write false
        (Conn.handshakeBytes infoHash peerId) n)) (c + lostIf (closedAt w k) 3) := by
  obtain ⟨st, hst, hl⟩ := hrel.lines.get_line hline
  have hlt : k < w.streams.length := (List.getElem?_eq_some_iff.mp hst).1
  have hlt' : k < ls.length := (List.getElem?_eq_some_iff.mp hline).1
  -- the connection is there first
  have hconn : Rel ⟨w.heap, w.streams.set k { st with connected := true }⟩
      (ls.set k { l with connected := true }) c := by
    obtain ⟨others, hbefore, hafter⟩ := held_split hst
    have hsame := hafter { st with connected := true }
    exact ⟨hrel.books.perm (hbefore.trans hsame.symm),
      hrel.lines.set ⟨rfl, hl.closed, hl.taken, hl.queue⟩⟩
  obtain ⟨st', hwrite, -, -, hrel'⟩ := uvWrite_owned (n := n) hconn
    (issued_handshake w.heap (Conn.handshakeBytes infoHash peerId)) (by unfold newHandshake; simp)
    (by unfold Conn.handshakeBytes; simp) (List.getElem?_set_self hlt)
    (List.getElem?_set_self hlt') rfl
  simp only [List.set_set] at hwrite hrel'
  refine ⟨⟨(newHandshake w.heap (Conn.handshakeBytes infoHash peerId)).1, w.streams.set k st'⟩,
    ?_, ?_⟩
  · unfold connect
    rw [hst]
    exact hwrite
  · rw [closedAt_eq hst]
    exact hrel'

/-- Whether a stream is connected, and closed. -/
def Stream.flags (st : Stream) : Bool × Bool := (st.connected, st.closed)

/-- The flags of the streams are the same. -/
def SameFlags (w w' : World) : Prop :=
  w'.streams.length = w.streams.length ∧
    ∀ i : Nat, w'.streams[i]?.map Stream.flags = w.streams[i]?.map Stream.flags

theorem SameFlags.receives (hsame : SameFlags w w') (this i : Nat) :
    Receives w' this i ↔ Receives w this i := by
  have hi := congrArg (Option.map Prod.fst) (hsame.2 i)
  rw [Option.map_map, Option.map_map] at hi
  unfold Receives
  exact and_congr_right fun _ => by
    rw [show w'.streams[i]?.map Stream.connected = w.streams[i]?.map Stream.connected from hi]

theorem SameFlags.closedAt (hsame : SameFlags w w') (i : Nat) : closedAt w' i = closedAt w i := by
  have hi := congrArg (Option.map Prod.snd) (hsame.2 i)
  rw [Option.map_map, Option.map_map] at hi
  unfold Sends.closedAt
  rw [show w'.streams[i]?.map Stream.closed = w.streams[i]?.map Stream.closed from hi]

theorem SameFlags.set (hst : w.streams[k]? = some st) (hconn : st'.connected = st.connected)
    (hclosed : st'.closed = st.closed) (g : Heap UInt8) :
    SameFlags w ⟨g, w.streams.set k st'⟩ := by
  refine ⟨List.length_set, fun i => ?_⟩
  change (w.streams.set k st')[i]?.map _ = _
  by_cases hik : k = i
  · subst hik
    rw [List.getElem?_set_self (List.getElem?_eq_some_iff.mp hst).1, hst]
    exact congrArg some (Prod.ext hconn hclosed)
  · rw [List.getElem?_set_ne hik]

/-- A round of `send_have`. -/
theorem sendHaveTo_ok (hrel : Rel w ls c) (this : Nat) (index : Int) (answers : List Nat) {i : Nat}
    (hi : i < w.streams.length) :
    ∃ w', sendHaveTo this index answers w i = .ok w' ∧ SameFlags w w' ∧
      Rel w' (haveLine this (createHaveMessage index).bytes answers ls i)
        (c + lostIf (unsent w this i) 3) := by
  have hst := List.getElem?_eq_getElem hi
  obtain ⟨l, hline, hl⟩ := hrel.lines.get hst
  have hissued := issued_have w.heap (createHaveMessage index).bytes
  have hreceives : Receives w this i ↔ i ≠ this ∧ l.connected = true := by
    unfold Receives
    rw [hst, Option.map_some, Option.getD_some, hl.connected]
  have hgrown : ∀ v, Receives ⟨v, w.streams⟩ this i ↔ Receives w this i := fun _ => Iff.rfl
  have hhave : haveLine this (createHaveMessage index).bytes answers ls i =
      if i ≠ this ∧ l.connected = true then
        ls.set i (l.write false (createHaveMessage index).bytes (answers.getD i 0))
      else ls := by
    unfold haveLine
    rw [hline]
  unfold sendHaveTo
  rw [hhave]
  by_cases hr : Receives w this i
  · obtain ⟨st', hwrite, hconn, hclosed, hrel'⟩ := uvWrite_owned (n := answers.getD i 0) hrel
      hissued (by unfold newHave; simp) (haveBytes_ne_nil index) hst hline
      (hl.connected.trans (hreceives.mp hr).2)
    refine ⟨_, (if_pos ((hgrown _).mpr hr)).trans hwrite, .set hst hconn hclosed _, ?_⟩
    have hunsent : unsent w this i = w.streams[i].closed := by
      unfold unsent
      rw [closedAt_eq hst, decide_eq_true hr]
      rfl
    rw [if_pos (hreceives.mp hr), hunsent]
    exact hrel'
  · refine ⟨_, (if_neg fun h => hr ((hgrown _).mp h)), ⟨rfl, fun _ => rfl⟩, ?_⟩
    have hunsent : unsent w this i = true := by
      unfold unsent
      rw [decide_eq_false hr]
      rfl
    rw [if_neg fun h => hr (hreceives.mpr h), hunsent]
    have hall : (newHave w.heap (createHaveMessage index).bytes).1.Books
        ([_, _, _] ++ held w.streams) c := hissued.books _ _ hrel.books
    exact ⟨hall.lose, hrel.lines.keep (hissued.keeps hrel.books)⟩

theorem SameFlags.unsent (hsame : SameFlags w w') (this i : Nat) :
    unsent w' this i = unsent w this i := by
  unfold Sends.unsent
  rw [hsame.closedAt, decide_eq_decide.mpr (hsame.receives this i)]

/-- The loop of `send_have`, over the connections `is`. -/
theorem sendHave_loop (this : Nat) (index : Int) (answers : List Nat) {is : List Nat}
    (hrel : Rel w ls c) (his : ∀ i ∈ is, i < w.streams.length) :
    ∃ w', is.foldlM (sendHaveTo this index answers) w = .ok w' ∧
      Rel w' (is.foldl (haveLine this (createHaveMessage index).bytes answers) ls)
        (c + 3 * is.countP (unsent w this)) := by
  induction is generalizing w ls c with
  | nil => exact ⟨w, rfl, hrel⟩
  | cons i is ih =>
    obtain ⟨w₁, hstep, hsame, hrel₁⟩ :=
      sendHaveTo_ok hrel this index answers (his i List.mem_cons_self)
    obtain ⟨w', hloop, hrel'⟩ := ih hrel₁ fun j hj => by
      rw [hsame.1]
      exact his j (List.mem_cons_of_mem i hj)
    refine ⟨w', ?_, ?_⟩
    · rw [List.foldlM_cons, hstep]
      exact hloop
    · have hcount : c + lostIf (unsent w this i) 3 + 3 * is.countP (unsent w₁ this) =
          c + 3 * (i :: is).countP (unsent w this) := by
        have hcongr : is.countP (unsent w₁ this) = is.countP (unsent w this) :=
          List.countP_congr fun j _ => by rw [hsame.unsent]
        rw [hcongr, List.countP_cons]
        unfold lostIf
        split_ifs <;> omega
      rw [← hcount]
      exact hrel'

/-- The kernel takes bytes of what is still there. -/
theorem flush_ok (hrel : Rel w ls c) (hprompt : Prompt ls (.flush k n)) :
    ∃ w', flush w k n = .ok w' ∧ Rel w' (ls.modify k (·.flush n)) c := by
  cases hst : w.streams[k]? with
  | none =>
    have hlen : ls.length ≤ k := hrel.lines.length ▸ List.getElem?_eq_none_iff.mp hst
    refine ⟨w, ?_, ?_⟩
    · unfold flush
      rw [hst]
    · rw [List.modify_eq_self hlen]
      exact hrel
  | some st =>
    obtain ⟨l, hline, hl⟩ := hrel.lines.get hst
    obtain ⟨hlt, hat⟩ := List.getElem?_eq_some_iff.mp hst
    obtain ⟨hlt', hat'⟩ := List.getElem?_eq_some_iff.mp hline
    have hmodify : ls.modify k (·.flush n) = ls.set k (l.flush n) := by
      rw [List.modify_eq_set_getElem?, hline]
      rfl
    rw [hmodify]
    have hself : w.streams.set k st = w.streams := by rw [← hat, List.set_getElem_self]
    cases hq : st.queue with
    | nil =>
      have hempty : l.queue = [] := by
        rw [← List.length_eq_zero_iff, ← hl.queue.length_eq, hq]
        rfl
      have hflush : l.flush n = l := by
        unfold Line.flush
        rw [hempty]
      refine ⟨w, ?_, ?_⟩
      · unfold flush
        rw [hst]
        simp only [hq]
      · rw [hflush, ← hat', List.set_getElem_self]
        exact hrel
    | cons wr rest =>
      have hqueue := hl.queue
      rw [hq] at hqueue
      obtain ⟨⟨b, bytes⟩, rest', hw, hrest, hlq⟩ := List.forall₂_cons_left_iff.mp hqueue
      have hlen := hw.len
      simp only at hlen
      have hpos := List.length_pos_iff.mpr hw.nonempty
      simp only at hpos
      by_cases hm : min n (wr.len - wr.done) = 0
      · have hzero : n = 0 := by omega
        have hflush : l.flush n = l := by
          unfold Line.flush
          rw [hlq, hzero]
          simp only [if_neg (Nat.not_le_of_lt hpos), List.take_zero, List.append_nil,
            List.drop_zero]
          rw [← hlq]
        refine ⟨w, flush_zero hst hq hm, ?_⟩
        rw [hflush, ← hat', List.set_getElem_self]
        exact hrel
      · -- the message is not one of those that have been freed
        have hb : b = false := by
          cases b with
          | false => rfl
          | true =>
            have hzero := hprompt l bytes rest' hline hlq
            omega
        obtain ⟨cells, hget, hcells, hdrop⟩ := hw.bytes hb
        refine ⟨_, flush_eq hst hq hm hget hcells, ?_, hrel.lines.set (hl.advance hq hlq hdrop)⟩
        obtain ⟨others, hbefore, hafter⟩ := held_split hst
        refine hrel.books.perm (hbefore.trans ?_)
        exact ((advance_holds hq _).symm.append_right others).trans (hafter _).symm

theorem flush_back (hrel : Rel w ls c) (h : flush w k n = .ok w') :
    Prompt ls (.flush k n) := by
  intro l bytes rest' hline hlq
  obtain ⟨st, hst, hl⟩ := hrel.lines.get_line hline
  have hqueue := hl.queue
  rw [hlq] at hqueue
  obtain ⟨wr, rest, hw, hrest, hq⟩ := List.forall₂_cons_right_iff.mp hqueue
  by_contra hn
  have hlen := hw.len
  simp only at hlen
  have hpos := List.length_pos_iff.mpr hw.nonempty
  simp only at hpos
  have hm : min n (wr.len - wr.done) ≠ 0 := by omega
  rw [flush_dead hst hq hm (hw.freed rfl).2] at h
  exact absurd h (by simp)

/-- `free` of a block that is accounted for. -/
theorem free_ok {a : Nat} (hb : w.heap.Books (a :: as) c) :
    ∃ g, free w a = .ok ⟨g, w.streams⟩ ∧ g.Books as c ∧ Keeps w.heap g as := by
  obtain ⟨xs, hget⟩ := hb.get List.mem_cons_self
  refine ⟨w.heap.put a none, ?_, hb.free, ?_, fun b hmem => ?_, fun b hlt hdead => ?_⟩
  · unfold free
    rw [Heap.free_to hget]
    rfl
  · rw [Heap.next_put]
  · exact Heap.get_put_ne (fun (hab : a = b) => (List.nodup_cons.mp hb.nodup).1 (hab ▸ hmem)) none
  · by_cases hab : a = b
    · exact hab ▸ Heap.get_put_self (Heap.lt_next hget) none
    · rw [Heap.get_put_ne hab, hdead]

theorem Keeps.trans {f : Heap UInt8} (hfirst : Keeps h g as) (hsecond : Keeps g f as) :
    Keeps h f as :=
  ⟨Nat.le_trans hfirst.next hsecond.next,
    fun a ha => (hsecond.same a ha).trans (hfirst.same a ha),
    fun a ha hdead => hsecond.dead a (Nat.lt_of_lt_of_le ha hfirst.next) (hfirst.dead a ha hdead)⟩

theorem Keeps.mono {bs : List Nat} (hk : Keeps h g as) (hsub : ∀ a ∈ bs, a ∈ as) : Keeps h g bs :=
  ⟨hk.next, fun a ha => hk.same a (hsub a ha), hk.dead⟩

/-- A callback frees what it owns, and nothing else. -/
theorem call_ok (hb : w.heap.Books (wr.owns ++ as) c) :
    ∃ g, call w wr = .ok ⟨g, w.streams⟩ ∧ g.Books as c ∧ Keeps w.heap g as := by
  have htwo : ∀ {w : World}, w.heap.Books (wr.buf :: wr.req :: as) c →
      ∃ g, (free w wr.buf >>= fun w => free w wr.req) = .ok ⟨g, w.streams⟩ ∧ g.Books as c ∧
        Keeps w.heap g as := by
    intro w hb
    obtain ⟨g₁, hfree₁, hb₁, hk₁⟩ := free_ok hb
    obtain ⟨g₂, hfree₂, hb₂, hk₂⟩ := free_ok (w := ⟨g₁, w.streams⟩) hb₁
    refine ⟨g₂, ?_, hb₂, (hk₁.mono fun a => List.mem_cons_of_mem _).trans hk₂⟩
    rw [hfree₁]
    exact hfree₂
  unfold call
  by_cases hcb : wr.cb = .writeCb
  · have howns : wr.owns = [wr.buf, wr.req] := if_pos hcb
    rw [howns] at hb
    rw [if_pos hcb]
    exact htwo hb
  · have howns : wr.owns = [wr.base, wr.buf, wr.req] := if_neg hcb
    rw [howns] at hb
    rw [if_neg hcb]
    obtain ⟨g₁, hfree₁, hb₁, hk₁⟩ := free_ok hb
    obtain ⟨g₂, hfree₂, hb₂, hk₂⟩ := htwo (w := ⟨g₁, w.streams⟩) hb₁
    refine ⟨g₂, ?_, hb₂, (hk₁.mono fun a ha => ?_).trans hk₂⟩
    · rw [hfree₁]
      exact hfree₂
    · exact List.mem_cons_of_mem _ (List.mem_cons_of_mem _ ha)

theorem callback_ok (hrel : Rel w ls c) : ∃ w', callback w k = .ok w' ∧ Rel w' ls c := by
  cases hst : w.streams[k]? with
  | none =>
    refine ⟨w, ?_, hrel⟩
    unfold callback
    rw [hst]
  | some st =>
    obtain ⟨l, hline, hl⟩ := hrel.lines.get hst
    obtain ⟨hlt', hat'⟩ := List.getElem?_eq_some_iff.mp hline
    cases hf : st.finished with
    | nil =>
      refine ⟨w, ?_, hrel⟩
      unfold callback
      rw [hst]
      simp only [hf]
    | cons wr rest =>
      obtain ⟨others, hbefore, hafter⟩ := held_split hst
      have hholds : st.holds.Perm (wr.owns ++ ({ st with finished := rest } : Stream).holds) := by
        unfold Stream.holds
        rw [hf, ← List.flatMap_cons]
        exact List.Perm.flatMap_right _ List.perm_middle
      have hperm : (held w.streams).Perm
          (wr.owns ++ held (w.streams.set k { st with finished := rest })) := by
        refine hbefore.trans ((hholds.append_right others).trans ?_)
        rw [List.append_assoc]
        exact (hafter _).symm.append_left wr.owns
      obtain ⟨g, hcall, hbooks, hkeep⟩ :=
        call_ok (w := ⟨w.heap, w.streams.set k { st with finished := rest }⟩)
          (hrel.books.perm hperm)
      refine ⟨⟨g, w.streams.set k { st with finished := rest }⟩, ?_, hbooks, ?_⟩
      · unfold callback
        rw [hst]
        simp only [hf]
        exact hcall
      · have hsame : LineRel w.heap { st with finished := rest } l :=
          ⟨hl.connected, hl.closed, hl.taken, hl.queue⟩
        have hlines := hrel.lines.set (k := k) hsame
        rw [← hat', List.set_getElem_self] at hlines
        exact hlines.keep hkeep

theorem close_ok (hrel : Rel w ls c) :
    ∃ w', close w k = .ok w' ∧ Rel w' (ls.modify k Line.close) c := by
  cases hst : w.streams[k]? with
  | none =>
    have hlen : ls.length ≤ k := hrel.lines.length ▸ List.getElem?_eq_none_iff.mp hst
    refine ⟨w, ?_, ?_⟩
    · unfold close
      rw [hst]
    · rw [List.modify_eq_self hlen]
      exact hrel
  | some st =>
    obtain ⟨l, hline, hl⟩ := hrel.lines.get hst
    have hmodify : ls.modify k Line.close = ls.set k l.close := by
      rw [List.modify_eq_set_getElem?, hline]
      rfl
    rw [hmodify]
    have hclosed : LineRel w.heap
        { st with closed := true, queue := [], finished := st.finished ++ st.queue } l.close :=
      ⟨hl.connected, rfl, hl.taken, List.Forall₂.nil⟩
    refine ⟨⟨w.heap, w.streams.set k
      { st with closed := true, queue := [], finished := st.finished ++ st.queue }⟩, ?_, ?_,
      hrel.lines.set hclosed⟩
    · unfold close
      rw [hst]
    · obtain ⟨others, hbefore, hafter⟩ := held_split hst
      refine hrel.books.perm (hbefore.trans ?_)
      refine List.Perm.trans ?_ (hafter _).symm
      refine List.Perm.append_right others ?_
      exact List.Perm.flatMap_right _ List.perm_append_comm

theorem lineStep_connect {infoHash : Digest} {peerId : List UInt8} (hline : ls[k]? = some l) :
    lineStep ls (.connect k infoHash peerId n) =
      .ok (ls.set k (({ l with connected := true } : Line).write false
        (Conn.handshakeBytes infoHash peerId) n)) := by
  simp only [lineStep, hline]

/-- **A step does what it does to the lines**, if it is prompt. -/
theorem step_related (hrel : Rel w ls c) {e : Event} (h : lineStep ls e = .ok ls')
    (hprompt : Prompt ls e) : ∃ w', step w e = .ok w' ∧ Rel w' ls' (c + leaked w e) := by
  cases e with
  | connect k infoHash peerId n =>
    cases hline : ls[k]? with
    | none => exact absurd h (by simp [lineStep, hline])
    | some l =>
      obtain rfl := Except.ok.inj ((lineStep_connect hline).symm.trans h)
      exact connect_ok hrel hline
  | request k index offset length n =>
    exact sendMessage_ok hrel (requestBytes_ne_nil index offset length) h
  | interested k n => exact sendMessage_ok hrel interestedBytes_ne_nil h
  | «have» this index answers =>
    obtain rfl := Except.ok.inj h
    rw [← hrel.lines.length]
    exact sendHave_loop this index answers hrel fun i hi => List.mem_range.mp hi
  | flush k n =>
    obtain rfl := Except.ok.inj h
    exact flush_ok hrel hprompt
  | callback k =>
    obtain rfl := Except.ok.inj h
    exact callback_ok hrel
  | close k =>
    obtain rfl := Except.ok.inj h
    exact close_ok hrel

/-- **A step that uses no freed memory is prompt**, and one of the lines. -/
theorem step_back (hrel : Rel w ls c) {e : Event} (h : step w e = .ok w') :
    Prompt ls e ∧ ∃ ls', lineStep ls e = .ok ls' := by
  cases e with
  | connect k infoHash peerId n =>
    refine ⟨trivial, ?_⟩
    cases hline : ls[k]? with
    | some l => exact ⟨_, lineStep_connect hline⟩
    | none =>
      have hst : w.streams[k]? = none :=
        List.getElem?_eq_none (hrel.lines.length ▸ List.getElem?_eq_none_iff.mp hline)
      exact absurd h (by simp [step, connect, hst])
  | request k index offset length n => exact ⟨trivial, sendMessage_back hrel h⟩
  | interested k n => exact ⟨trivial, sendMessage_back hrel h⟩
  | «have» this index answers => exact ⟨trivial, _, rfl⟩
  | flush k n => exact ⟨flush_back hrel h, _, rfl⟩
  | callback k => exact ⟨trivial, _, rfl⟩
  | close k => exact ⟨trivial, _, rfl⟩

end CometBt.Sends
