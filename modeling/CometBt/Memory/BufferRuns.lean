import CometBt.Memory.Buffers

/-!
# Programs that use `buffer` objects

* `step_inv`, **`buffers_tidy`**: in every program that uses the objects, each owns its block: none
  is shared, used after it was freed, or freed twice. A copying assignment does not free the block
  it replaces, and nothing else loses one.
* `step_values_iff`, **`buffers_are_values`**: the objects behave as values exactly if none is
  constructed with the size 0, which leaves its members as they are, and none that holds anything is
  copied to itself.
* **`regrow_mirrors`**: what `recv_buffer` does to have a larger block.
-/

namespace CometBt.Buffers

open Lib

variable {s s' : Objects} {k x y n index : Nat} {p q : Ptr} {m : Option Nat} {xs ys : Cells UInt8}
  {byte : UInt8}

/-! ## What the operations keep -/

theorem sized_set {o : Option (Ptr × Option Nat)} (hs : Inv s k) (ho : Sized o) :
    ∀ o' ∈ s.objects.set x o, Sized o' := by
  intro o' hmem
  rcases List.mem_or_eq_of_mem_set hmem with hold | rfl
  · exact hs.sized o' hold
  · exact ho

theorem Inv.push (hs : Inv s k) {o : Ptr × Option Nat} (ho : Owners.addr (some o) = none)
    (hsized : Sized (some o)) : Inv (s.push o) k := by
  refine ⟨hs.tidy.push ho, fun o' hmem => ?_⟩
  rcases List.mem_append.mp hmem with hold | hnew
  · exact hs.sized o' hold
  · exact List.mem_singleton.mp hnew ▸ hsized

theorem Inv.started (hs : Inv s k) : Inv (start s) k := by
  refine hs.push rfl fun m h => ?_
  exact absurd h (by simp)

theorem Inv.adopt (hs : Inv s k) (hx : x < s.objects.length) (hfits : Fits m xs) :
    Inv (s.adopt x xs m) (k + if (s.addrOf x).isSome then 1 else 0) := by
  refine ⟨hs.tidy.adopt hx hfits, sized_set hs fun m h => ?_⟩
  exact absurd h (by simp)

theorem Inv.vacate (hs : Inv s k) (hx : x < s.objects.length) :
    Inv (s.vacate x (some (.null, some 0))) (k + if (s.addrOf x).isSome then 1 else 0) := by
  refine ⟨hs.tidy.vacate hx rfl, sized_set hs fun m h => ?_⟩
  exact (Prod.mk.inj (Option.some.inj h)).2.symm

theorem Inv.release (hs : Inv s k) (hx : x < s.objects.length)
    {o : Option (Ptr × Option Nat)} (ho : Owners.addr o = none) (hsized : Sized o) :
    Inv (s.release x o) k :=
  ⟨hs.tidy.release hx ho, sized_set hs hsized⟩

theorem Inv.refill (hs : Inv s k) (hx : Holds s x p xs) (hlen : ys.length = xs.length) :
    Inv (s.refill x ys) k := by
  refine ⟨hs.tidy.refill fun a m ha => ?_, hs.sized⟩
  obtain ⟨zs, hget, hfits⟩ := hs.tidy.owned.live ha
  obtain ⟨rfl, rfl⟩ : p = .to a ∧ some xs.length = m := by
    simpa using Option.some.inj (Option.some.inj (hx.object.symm.trans ha))
  rcases hx.cells with ⟨hnull, -⟩ | ⟨b, hb, hget', hfits'⟩
  · exact absurd hnull (by simp)
  · exact ⟨by rw [hlen], hlen ▸ hfits'.2⟩

theorem Inv.steal (hs : Inv s k) (hx : x < s.objects.length) (hy : y < s.objects.length) :
    Inv (s.steal x y (.null, some 0)) (k + if (s.addrOf x).isSome then 1 else 0) := by
  refine ⟨hs.tidy.steal hx hy rfl, fun o hmem => ?_⟩
  rcases List.mem_or_eq_of_mem_set hmem with hold | rfl
  · rcases List.mem_or_eq_of_mem_set hold with hold | rfl
    · exact hs.sized o hold
    · rw [List.getElem?_eq_getElem hy]
      exact hs.sized _ (List.getElem_mem hy)
  · intro m h
    exact (Prod.mk.inj (Option.some.inj h)).2.symm

theorem addrOf_start : (start s).addrOf s.objects.length = none := by
  unfold Owners.addrOf start Owners.push
  rw [List.getElem?_concat_length]
  rfl

theorem Inv.constructed (hs : Inv s k) {size : Nat} (hlen : xs.length = size)
    (hsize : size < 2 ^ 64) : Inv ((start s).adopt s.objects.length xs (some size)) k := by
  have hfits : Fits (some size) xs := ⟨by rw [hlen], hlen ▸ hsize⟩
  have hinv := hs.started.adopt lt_start hfits
  rw [addrOf_start] at hinv
  exact hinv

theorem addrOf_release {o : Option (Ptr × Option Nat)} (hx : x < s.objects.length)
    (ho : Owners.addr o = none) : (s.release x o).addrOf x = none := by
  unfold Owners.release
  rw [Owners.addrOf_set hx, if_pos rfl]
  exact ho

/-- What a copying assignment has done where it returns. -/
theorem copyAssign_ok (hs : Inv s k) (h : copyAssign s x y = .ok s') :
    ∃ o q ys, s.objects[x]? = some (some o) ∧ Holds s y q ys ∧
      ((0 < ys.length ∧ x ≠ y ∧ s' = s.adopt x ys (some ys.length)) ∨
        (ys = [] ∧ s' = s.vacate x (some (.null, some 0)))) := by
  have hcopy := h
  unfold copyAssign at h
  obtain ⟨⟨p, m⟩, hp, h⟩ := bind_eq_ok.mp h
  obtain ⟨q, hq, -⟩ := bind_eq_ok.mp h
  have hx := members_eq_ok.mp hp
  obtain ⟨ys, hy⟩ := hs.holds_of_pointer hq
  refine ⟨(p, m), q, ys, hx, hy, ?_⟩
  by_cases hpos : 0 < ys.length
  · obtain ⟨b, rfl⟩ : ∃ b, q = .to b := by
      rcases hy.cells with ⟨-, rfl⟩ | ⟨b, hb, -⟩
      · exact absurd hpos (by simp)
      · exact ⟨b, hb⟩
    by_cases hxy : x = y
    · subst hxy
      rw [copyAssign_self hy hpos] at hcopy
      exact absurd hcopy (by simp)
    · rw [copyAssign_to hx hy hpos hxy] at hcopy
      exact .inl ⟨hpos, hxy, (Except.ok.inj hcopy).symm⟩
  · obtain rfl := List.length_eq_zero_iff.mp (Nat.eq_zero_of_not_pos hpos)
    rw [copyAssign_empty hx hy] at hcopy
    exact .inr ⟨rfl, (Except.ok.inj hcopy).symm⟩

/-- What a moving assignment has done where it returns. -/
theorem moveAssign_ok (hs : Inv s k) (h : moveAssign s x y = .ok s') :
    (x = y ∧ s' = s) ∨ ∃ p q xs ys, Holds s x p xs ∧ Holds s y q ys ∧ x ≠ y ∧
      s' = (s.release x (some (.null, some 0))).steal x y (.null, some 0) := by
  have hmove := h
  unfold moveAssign at h
  obtain ⟨o, -, h⟩ := bind_eq_ok.mp h
  by_cases hxy : y = x
  · rw [if_pos hxy] at h
    exact .inl ⟨hxy.symm, (Except.ok.inj h).symm⟩
  · rw [if_neg hxy] at h
    obtain ⟨p, hp, h⟩ := bind_eq_ok.mp h
    obtain ⟨heap, -, h⟩ := bind_eq_ok.mp h
    obtain ⟨q, hq, -⟩ := bind_eq_ok.mp h
    obtain ⟨xs, hx⟩ := hs.holds_of_pointer hp
    obtain ⟨ys, hy⟩ := hs.holds_of_pointer hq
    rw [moveAssign_eq hx hy (Ne.symm hxy)] at hmove
    exact .inr ⟨p, q, xs, ys, hx, hy, Ne.symm hxy, (Except.ok.inj hmove).symm⟩

theorem length_filled {size srcSize : Nat} {cells : Cells UInt8} (hle : srcSize ≤ size)
    (hcells : srcSize ≤ cells.length) :
    (cells.take srcSize ++ Cells.unset (size - srcSize)).length = size := by
  rw [List.length_append, List.length_take, length_unset]
  omega

/-- **A step leaves the objects with a block each**, and loses those it replaces. -/
theorem step_inv (hs : Inv s k) {op : Op} (h : step s op = .ok s') :
    Inv s' (k + replaced s op) := by
  cases op with
  | construct =>
    obtain rfl := Except.ok.inj h
    exact hs.push rfl fun m hm => (Prod.mk.inj (Option.some.inj hm)).2.symm
  | sized size =>
    change sized (start s) _ size.toNat = _ at h
    rw [sized_eq] at h
    split_ifs at h
    · obtain rfl := Except.ok.inj h
      exact hs.started
    · obtain rfl := Except.ok.inj h
      exact hs.constructed List.length_replicate size.toNat_lt
  | filled size src srcSize =>
    change filled (start s) _ size.toNat src srcSize.toNat = _ at h
    rw [filled_eq src size.toNat_lt] at h
    cases src with
    | none =>
      split_ifs at h
      obtain rfl := Except.ok.inj h
      exact hs.constructed length_unset size.toNat_lt
    | some cells =>
      change (if _ then _ else if _ then _ else _) = _ at h
      split_ifs at h with hlt hshort
      obtain rfl := Except.ok.inj h
      exact hs.constructed (length_filled (Nat.le_of_not_lt hlt) (Nat.le_of_not_lt hshort))
        size.toNat_lt
  | moveConstruct other =>
    have hmove : moveConstruct s other = .ok s' := h
    obtain ⟨q, hq, -⟩ := bind_eq_ok.mp h
    obtain ⟨ys, hy⟩ := hs.holds_of_pointer hq
    rw [moveConstruct_eq hy] at hmove
    obtain rfl := Except.ok.inj hmove
    have hinv := hs.started.steal lt_start (Nat.lt_trans hy.lt lt_start)
    rw [addrOf_start] at hinv
    exact hinv
  | moveAssign this other =>
    rcases moveAssign_ok hs h with ⟨-, rfl⟩ | ⟨p, q, xs, ys, hx, hy, -, rfl⟩
    · exact hs
    · have hsized : Sized (some (.null, some 0)) := fun m hm =>
        (Prod.mk.inj (Option.some.inj hm)).2.symm
      have hlen : (s.release this (some (.null, some 0))).objects.length = s.objects.length :=
        List.length_set
      have hinv := (hs.release hx.lt rfl hsized).steal (hlen ▸ hx.lt) (hlen ▸ hy.lt)
      rw [addrOf_release hx.lt rfl] at hinv
      exact hinv
  | copyAssign this other =>
    obtain ⟨o, q, ys, hx, hy, ⟨hpos, -, rfl⟩ | ⟨-, rfl⟩⟩ := copyAssign_ok hs h
    · have hlt : this < s.objects.length := (List.getElem?_eq_some_iff.mp hx).1
      refine hs.adopt hlt ?_
      rcases hy.cells with ⟨-, rfl⟩ | ⟨b, -, -, hfits⟩
      · exact absurd hpos (by simp)
      · exact hfits
    · exact hs.vacate (List.getElem?_eq_some_iff.mp hx).1
  | write this index byte =>
    have hwrite : write s this index.toNat byte = .ok s' := h
    obtain ⟨n, -, h⟩ := bind_eq_ok.mp h
    split_ifs at h
    · exact absurd h (by simp [bind, Except.bind, throw, throwThe, MonadExceptOf.throw])
    · obtain ⟨p, hp, -⟩ := bind_eq_ok.mp h
      obtain ⟨xs, hx⟩ := hs.holds_of_pointer hp
      by_cases hindex : index.toNat < xs.length
      · rw [write_eq hx hindex] at hwrite
        obtain rfl := Except.ok.inj hwrite
        exact hs.refill hx List.length_set
      · obtain ⟨e, -, he⟩ := write_error hx (Nat.le_of_not_lt hindex)
        rw [he] at hwrite
        exact absurd hwrite (by simp)
  | destroy this =>
    have hdestroy : destroy s this = .ok s' := h
    obtain ⟨p, hp, -⟩ := bind_eq_ok.mp h
    obtain ⟨xs, hx⟩ := hs.holds_of_pointer hp
    rw [destroy_eq hx] at hdestroy
    obtain rfl := Except.ok.inj hdestroy
    exact hs.release hx.lt rfl fun m hm => absurd hm (by simp)

/-- The ways in which a member function may stop. -/
def stops : List Stop :=
  [.scope, .assertion, .fault .wild, .fault .null, .fault .overlap, .fault .bounds]

theorem members_error {e : Stop} (h : members s x = .error e) : e ∈ stops := by
  unfold members at h
  split at h
  · exact absurd h (by simp)
  · exact Except.error.inj h ▸ List.mem_cons_self

theorem pointer_error {e : Stop} (h : pointer s x = .error e) : e ∈ stops := by
  unfold pointer at h
  rcases bind_eq_error.mp h with hm | ⟨⟨p, m⟩, -, h⟩
  · exact members_error hm
  · match p, h with
    | .wild, h => simp [← Except.error.inj h, stops]

theorem size_error {e : Stop} (h : size s x = .error e) : e ∈ stops := by
  unfold size at h
  rcases bind_eq_error.mp h with hm | ⟨⟨p, m⟩, -, h⟩
  · exact members_error hm
  · match m, h with
    | none, h => simp [← Except.error.inj h, stops]

theorem copyAssign_error (hs : Inv s k) {e : Stop} (h : copyAssign s x y = .error e) :
    e ∈ stops := by
  have hcopy := h
  unfold copyAssign at h
  rcases bind_eq_error.mp h with hm | ⟨⟨p, m⟩, hm, h⟩
  · exact members_error hm
  rcases bind_eq_error.mp h with hq | ⟨q, hq, -⟩
  · exact pointer_error hq
  have hx := members_eq_ok.mp hm
  obtain ⟨ys, hy⟩ := hs.holds_of_pointer hq
  by_cases hpos : 0 < ys.length
  · obtain ⟨b, rfl⟩ : ∃ b, q = .to b := by
      rcases hy.cells with ⟨-, rfl⟩ | ⟨b, hb, -⟩
      · exact absurd hpos (by simp)
      · exact ⟨b, hb⟩
    by_cases hxy : x = y
    · subst hxy
      rw [copyAssign_self hy hpos] at hcopy
      simp [← Except.error.inj hcopy, stops]
    · rw [copyAssign_to hx hy hpos hxy] at hcopy
      exact absurd hcopy (by simp)
  · obtain rfl := List.length_eq_zero_iff.mp (Nat.eq_zero_of_not_pos hpos)
    rw [copyAssign_empty hx hy] at hcopy
    exact absurd hcopy (by simp)

theorem moveAssign_error (hs : Inv s k) {e : Stop} (h : moveAssign s x y = .error e) :
    e ∈ stops := by
  have hmove := h
  unfold moveAssign at h
  rcases bind_eq_error.mp h with hm | ⟨o, hm, h⟩
  · exact members_error hm
  by_cases hxy : y = x
  · rw [if_pos hxy] at h
    exact absurd h (by simp [pure, Except.pure])
  rw [if_neg hxy] at h
  rcases bind_eq_error.mp h with hp | ⟨p, hp, h⟩
  · exact pointer_error hp
  obtain ⟨xs, hx⟩ := hs.holds_of_pointer hp
  rcases bind_eq_error.mp h with hfree | ⟨heap, -, h⟩
  · rcases hx.cells with ⟨rfl, -⟩ | ⟨a, rfl, hget, -⟩
    · exact absurd hfree (by simp [Heap.free, Except.mapError])
    · rw [Heap.free_to hget] at hfree
      exact absurd hfree (by simp [Except.mapError])
  rcases bind_eq_error.mp h with hq | ⟨q, hq, -⟩
  · exact pointer_error hq
  · obtain ⟨ys, hy⟩ := hs.holds_of_pointer hq
    rw [moveAssign_eq hx hy (Ne.symm hxy)] at hmove
    exact absurd hmove (by simp)

/-- What stops a member function. None finds a block that was freed. -/
theorem step_error (hs : Inv s k) {op : Op} {e : Stop} (h : step s op = .error e) :
    e ∈ stops := by
  cases op with
  | construct => exact absurd h (by simp [step])
  | sized size =>
    change sized (start s) _ size.toNat = _ at h
    rw [sized_eq] at h
    split_ifs at h
    simp [← Except.error.inj h, stops]
  | filled size src srcSize =>
    change filled (start s) _ size.toNat src srcSize.toNat = _ at h
    rw [filled_eq src size.toNat_lt] at h
    cases src with
    | none =>
      split_ifs at h
      simp [← Except.error.inj h, stops]
    | some cells =>
      change (if _ then _ else if _ then _ else _) = _ at h
      split_ifs at h
      · simp [← Except.error.inj h, stops]
      · simp [← Except.error.inj h, stops]
  | moveConstruct other =>
    have hmove : moveConstruct s other = .error e := h
    rcases bind_eq_error.mp h with hq | ⟨q, hq, -⟩
    · exact pointer_error hq
    obtain ⟨ys, hy⟩ := hs.holds_of_pointer hq
    rw [moveConstruct_eq hy] at hmove
    exact absurd hmove (by simp)
  | moveAssign this other => exact moveAssign_error hs h
  | copyAssign this other => exact copyAssign_error hs h
  | write this index byte =>
    have hwrite : write s this index.toNat byte = .error e := h
    rcases bind_eq_error.mp h with hn | ⟨n, -, h⟩
    · exact size_error hn
    split_ifs at h
    · simp [← Except.error.inj h, stops]
    · rcases bind_eq_error.mp h with hp | ⟨p, hp, -⟩
      · exact pointer_error hp
      obtain ⟨xs, hx⟩ := hs.holds_of_pointer hp
      by_cases hindex : index.toNat < xs.length
      · rw [write_eq hx hindex] at hwrite
        exact absurd hwrite (by simp)
      · obtain ⟨e', hmem, he⟩ := write_error hx (Nat.le_of_not_lt hindex)
        obtain rfl := Except.error.inj (he.symm.trans hwrite)
        simp only [List.mem_cons, List.not_mem_nil, or_false] at hmem
        rcases hmem with rfl | rfl | rfl <;> simp [stops]
  | destroy this =>
    have hdestroy : destroy s this = .error e := h
    rcases bind_eq_error.mp h with hp | ⟨p, hp, -⟩
    · exact pointer_error hp
    obtain ⟨xs, hx⟩ := hs.holds_of_pointer hp
    rw [destroy_eq hx] at hdestroy
    exact absurd hdestroy (by simp)

/-- The objects of a program that has constructed none. -/
theorem inv_empty : Inv {} 0 :=
  ⟨⟨⟨fun h => absurd h (by simp), fun h => absurd h (by simp [Owners.addrOf])⟩, rfl⟩,
    fun _ h => absurd h List.not_mem_nil⟩

/-- **Each object owns its block throughout every program**: it finds it there and of the size it
says, no other object holds it, and it is freed once. The blocks that are nobody's are those that
copying assignments replaced. -/
theorem buffers_tidy (ops : List Op) :
    match runFrom step {} ops with
    | .ok s => s.Tidy Fits (tally step replaced {} ops)
    | .error e => ∀ a, e ≠ .fault (.dead a) := by
  cases hrun : runFrom step {} ops with
  | ok s =>
    have hinv := run_tally (I := Inv) (fun _ _ _ _ hs h => step_inv hs h) inv_empty hrun
    rw [Nat.zero_add] at hinv
    exact hinv.tidy
  | error e =>
    obtain ⟨t, op, ⟨k, ht⟩, herr⟩ := run_error (I := fun s => ∃ k, Inv s k)
      (fun s op s' ⟨k, hs⟩ h => ⟨_, step_inv hs h⟩) ⟨0, inv_empty⟩ hrun
    rintro a rfl
    exact absurd (step_error ht herr) (by simp [stops])

/-! ## What the objects hold -/

theorem length_contents : s.contents.length = s.objects.length := List.length_map _

theorem set_concat {v : List (Content UInt8)} {c d : Content UInt8} {n : Nat} (hn : v.length = n) :
    (v ++ [c]).set n d = v ++ [d] := by
  subst hn
  rw [List.set_append_right _ _ (Nat.le_refl _), Nat.sub_self]
  rfl

theorem contents_start : (start s).contents = s.contents ++ [.wild] := Owners.contents_push _

theorem contents_constructed (hs : Inv s k) :
    ((start s).adopt s.objects.length xs m).contents = s.contents ++ [.holds xs] := by
  rw [Owners.contents_adopt hs.started.tidy.owned, contents_start, set_concat length_contents]

/-- Moving leaves the values where they belong. -/
theorem moveAssign_values (hs : Inv s k) (hx : Holds s x p xs) (hy : Holds s y q ys) :
    (moveAssign s x y).map Owners.contents =
      .ok ((s.contents.set y (.holds [])).set x (.holds ys)) := by
  by_cases hxy : x = y
  · subst hxy
    obtain rfl : xs = ys := by
      simpa using Option.some.inj (hx.contents.symm.trans hy.contents)
    rw [moveAssign_self hx, List.set_set]
    obtain ⟨hlt, hat⟩ := List.getElem?_eq_some_iff.mp hx.contents
    change Except.ok s.contents = _
    rw [← hat, List.set_getElem_self]
  · have hlen : (s.release x (some (.null, some 0))).objects.length = s.objects.length :=
      List.length_set
    have hrelease : (s.release x (some (.null, some 0))).contents =
        s.contents.set x (.holds []) := Owners.contents_release hs.tidy.owned rfl
    rw [moveAssign_eq hx hy hxy]
    change Except.ok (Owners.contents _) = _
    rw [Owners.contents_steal (hlen ▸ hy.lt), hrelease, List.set_set, List.getElem?_set_ne hxy,
      hy.contents, List.set_comm _ _ hxy]
    rfl

/-- Copying is what it would be for values, but of an object to itself. -/
theorem copyAssign_values_iff (hs : Inv s k) (hx : Holds s x p xs) (hy : Holds s y q ys) :
    (copyAssign s x y).map Owners.contents = .ok (s.contents.set x (.holds ys)) ↔
      (x = y → ys = []) := by
  by_cases hpos : 0 < ys.length
  · obtain ⟨b, rfl⟩ : ∃ b, q = .to b := by
      rcases hy.cells with ⟨-, rfl⟩ | ⟨b, hb, -⟩
      · exact absurd hpos (by simp)
      · exact ⟨b, hb⟩
    by_cases hxy : x = y
    · subst hxy
      rw [copyAssign_self hy hpos]
      refine iff_of_false (by simp [Except.map]) fun h => ?_
      rw [h rfl] at hpos
      exact absurd hpos (Nat.lt_irrefl 0)
    · rw [copyAssign_to hx.object hy hpos hxy]
      exact iff_of_true (congrArg Except.ok (Owners.contents_adopt hs.tidy.owned))
        fun h => absurd h hxy
  · obtain rfl := List.length_eq_zero_iff.mp (Nat.eq_zero_of_not_pos hpos)
    rw [copyAssign_empty hx.object hy]
    exact iff_of_true (congrArg Except.ok Owners.contents_vacate) fun _ => rfl

/-- **A step does to the contents what it would do to values exactly if it is proper.** -/
theorem step_values_iff (hs : Inv s k) {op : Op} {v : List (Content UInt8)}
    (h : valueStep s.contents op = .ok v) :
    (step s op).map Owners.contents = .ok v ↔ Proper s.contents op := by
  cases op with
  | construct =>
    obtain rfl := Except.ok.inj h
    exact iff_of_true (congrArg Except.ok (Owners.contents_push _)) trivial
  | sized size =>
    have hstep : step s (.sized size) = sized (start s) s.objects.length size.toNat := rfl
    have hzero : size.toNat = 0 ↔ size = 0 := by
      rw [← UInt64.toNat_inj]
      rfl
    change (if _ then _ else _) = _ at h
    rw [hstep, sized_eq]
    split_ifs at h ⊢ with hmax hsize
    · refine iff_of_false (fun hcontents => ?_) fun hne => hne (hzero.mp hsize)
      have hall := (Except.ok.inj hcontents).trans (Except.ok.inj h).symm
      rw [contents_start] at hall
      exact absurd (List.append_cancel_left hall) (by simp)
    · rw [← Except.ok.inj h]
      exact iff_of_true (congrArg Except.ok (contents_constructed hs)) fun heq =>
        hsize (hzero.mpr heq)
  | filled size src srcSize =>
    refine iff_of_true ?_ trivial
    have hstep : step s (.filled size src srcSize) =
        filled (start s) s.objects.length size.toNat src srcSize.toNat := rfl
    rw [hstep, filled_eq src size.toNat_lt]
    cases src with
    | none =>
      change (if _ then _ else _) = _ at h
      split_ifs at h ⊢
      rw [← Except.ok.inj h]
      exact congrArg Except.ok (contents_constructed hs)
    | some cells =>
      change (if _ then _ else if _ then _ else _) = _ at h
      change Except.map _ (if _ then _ else if _ then _ else _) = _
      split_ifs at h ⊢
      rw [← Except.ok.inj h]
      exact congrArg Except.ok (contents_constructed hs)
  | moveConstruct other =>
    refine iff_of_true ?_ trivial
    obtain ⟨ys, hys, h⟩ := bind_eq_ok.mp h
    obtain rfl := Except.ok.inj h
    obtain ⟨q, hy⟩ := hs.holds_of_value hys
    have hlt : other < s.contents.length := length_contents ▸ hy.lt
    change (moveConstruct s other).map _ = _
    rw [moveConstruct_eq hy]
    change Except.ok (Owners.contents _) = _
    rw [Owners.contents_steal (Nat.lt_trans hy.lt lt_start),
      (hy.push (.wild, none)).contents (s := start s), contents_start, set_concat length_contents,
      List.set_append_left _ _ hlt]
    rfl
  | moveAssign this other =>
    obtain ⟨xs, hxs, h⟩ := bind_eq_ok.mp h
    obtain ⟨ys, hys, h⟩ := bind_eq_ok.mp h
    obtain rfl := Except.ok.inj h
    obtain ⟨p, hx⟩ := hs.holds_of_value hxs
    obtain ⟨q, hy⟩ := hs.holds_of_value hys
    exact iff_of_true (moveAssign_values hs hx hy) trivial
  | copyAssign this other =>
    obtain ⟨xs, hxs, h⟩ := bind_eq_ok.mp h
    obtain ⟨ys, hys, h⟩ := bind_eq_ok.mp h
    obtain rfl := Except.ok.inj h
    obtain ⟨p, hx⟩ := hs.holds_of_value hxs
    obtain ⟨q, hy⟩ := hs.holds_of_value hys
    refine (copyAssign_values_iff hs hx hy).trans (imp_congr_right fun _ => ?_)
    rw [hy.contents, Option.some.injEq, Content.holds.injEq]
  | write this index byte =>
    refine iff_of_true ?_ trivial
    obtain ⟨xs, hxs, h⟩ := bind_eq_ok.mp h
    obtain ⟨p, hx⟩ := hs.holds_of_value hxs
    split_ifs at h with hindex
    change (write s this index.toNat byte).map _ = _
    rw [write_eq hx hindex, ← Except.ok.inj h]
    obtain ⟨a, rfl⟩ : ∃ a, p = .to a := by
      rcases hx.cells with ⟨-, rfl⟩ | ⟨a, ha, -⟩
      · exact absurd hindex (by simp)
      · exact ⟨a, ha⟩
    exact congrArg Except.ok (Owners.contents_refill hs.tidy.owned
      (Owners.addrOf_eq_some.mpr ⟨_, hx.object⟩))
  | destroy this =>
    refine iff_of_true ?_ trivial
    obtain ⟨xs, hxs, h⟩ := bind_eq_ok.mp h
    obtain rfl := Except.ok.inj h
    obtain ⟨p, hx⟩ := hs.holds_of_value hxs
    change (destroy s this).map _ = _
    rw [destroy_eq hx]
    exact congrArg Except.ok (Owners.contents_release hs.tidy.owned rfl)

/-- **The objects behave as values exactly if every step is proper**, in every program that uses
objects while they are there. -/
theorem buffers_are_values (ops : List Op) {v : List (Content UInt8)}
    (h : runFrom valueStep [] ops = .ok v) :
    (∀ pre, pre <+: ops →
      (runFrom step {} pre).map Owners.contents = runFrom valueStep [] pre) ↔
      Along valueStep Proper [] ops :=
  run_agrees_iff (f := Owners.contents) (I := fun s => ∃ k, Inv s k)
    (fun _ _ _ ⟨_, hs⟩ hv => step_values_iff hs hv)
    (fun _ _ _ ⟨_, hs⟩ hstep => ⟨_, step_inv hs hstep⟩) ⟨0, inv_empty⟩ h

/-- A buffer that is written, copied to one that was empty, and destroyed. -/
theorem buffers_are_values_sample :
    (∀ pre, pre <+: [.sized 2, .write 0 1 7, .construct, .copyAssign 1 0, .destroy 0] →
      (runFrom step {} pre).map Owners.contents = runFrom valueStep [] pre) ∧
      Along valueStep Proper []
        [.sized 2, .write 0 1 7, .construct, .copyAssign 1 0, .destroy 0] := by
  have hproper : Along valueStep Proper []
      [.sized 2, .write 0 1 7, .construct, .copyAssign 1 0, .destroy 0] := by
    refine (along_cons rfl).mpr ⟨?_, (along_cons rfl).mpr ⟨trivial, (along_cons rfl).mpr ⟨trivial,
      (along_cons rfl).mpr ⟨?_, (along_cons rfl).mpr ⟨trivial, trivial⟩⟩⟩⟩⟩
    · exact fun h => absurd h (by decide)
    · exact fun h => absurd h (by decide)
  exact ⟨(buffers_are_values _ rfl).mpr hproper, hproper⟩

/-! ## A larger block for `m_buff` -/

/-- The cells hold the bytes, as far as the first `n` go. -/
structure Mirrors (n : Nat) (cells : Cells UInt8) (bytes : List UInt8) : Prop where
  length : cells.length = bytes.length
  front : cells.take n = (bytes.take n).map some

/-- `new_buffer(size, m_buff.data(), src_size)`, moved to `m_buff`, the object `buff`, and
destroyed. -/
def regrow (s : Objects) (buff : Nat) (size : UInt64) (data : Option (Cells UInt8))
    (srcSize : UInt64) : List Op :=
  [.filled size data srcSize, .moveAssign buff s.objects.length, .destroy s.objects.length]

/-- **The new block has the bytes that the model of `recv_buffer` puts there**, and the old one is
given back. -/
theorem regrow_mirrors (hs : Inv s k) {size srcSize : UInt64} {bytes bytes' : List UInt8}
    (hx : Holds s x p xs) (hbytes : Mirrors srcSize.toNat xs bytes)
    (hsrc : srcSize.toNat ≤ xs.length)
    (hcopy : bufferCopy size.toNat bytes srcSize.toNat = .ok bytes') :
    ∃ s' q xs', runFrom step s
        (regrow s x size (if p = .null then none else some xs) srcSize) = .ok s' ∧
      Holds s' x q xs' ∧ Mirrors srcSize.toNat xs' bytes' ∧ Inv s' k := by
  have hsize : ∀ n : UInt64, asSize (n.toNat : Int) = n.toNat := fun n => by
    have hlt := n.toNat_lt
    unfold asSize
    omega
  obtain ⟨_, hassert, hcopy⟩ := bind_eq_ok.mp hcopy
  rw [hsize, hsize] at hcopy
  have hle : srcSize.toNat ≤ size.toNat := by
    unfold assertThat at hassert
    rw [hsize, hsize] at hassert
    split_ifs at hassert with hle
    exact Int.ofNat_le.mp hle
  have hbytes' : bytes' = bytes.take srcSize.toNat ++
      List.replicate (size.toNat - srcSize.toNat) 0 := by
    have htake : (bytes.take srcSize.toNat).length = srcSize.toNat := by
      rw [List.length_take, ← hbytes.length]
      omega
    split_ifs at hcopy with hout
    · exact absurd hcopy (by simp [bind, Except.bind, throw, throwThe, MonadExceptOf.throw])
    · rw [← Except.ok.inj hcopy]
      simp only [Int.toNat_natCast, htake]
  -- the new buffer
  obtain ⟨zs, hzs, hfront⟩ : ∃ zs : Cells UInt8, filled (start s) s.objects.length size.toNat
      (if p = .null then none else some xs) srcSize.toNat =
        .ok ((start s).adopt s.objects.length zs (some size.toNat)) ∧
      zs = xs.take srcSize.toNat ++ Cells.unset (size.toNat - srcSize.toNat) := by
    refine ⟨_, ?_, rfl⟩
    rw [filled_eq _ size.toNat_lt, if_neg (Nat.not_lt_of_le hle)]
    by_cases hnull : p = .null
    · obtain rfl : xs = [] := by
        rcases hx.cells with ⟨-, h⟩ | ⟨a, h, -⟩
        · exact h
        · exact absurd (hnull.symm.trans h) (by simp)
      rw [if_pos hnull, Nat.le_zero.mp hsrc, List.take_nil, List.nil_append, Nat.sub_zero]
    · rw [if_neg hnull]
      change (if xs.length < srcSize.toNat then _ else _) = _
      rw [if_neg (Nat.not_lt_of_le hsrc)]
  have hlen : zs.length = size.toNat := hfront ▸ length_filled hle hsrc
  have hnew : Inv ((start s).adopt s.objects.length zs (some size.toNat)) k :=
    hs.constructed hlen size.toNat_lt
  have hz : Holds ((start s).adopt s.objects.length zs (some size.toNat)) s.objects.length
      (.to (start s).heap.next) zs := by
    unfold Holds
    rw [hlen]
    exact Owners.shows_adopt lt_start ⟨by rw [hlen], hlen ▸ size.toNat_lt⟩
  have hx' : Holds ((start s).adopt s.objects.length zs (some size.toNat)) x p xs :=
    (hx.push (.wild, none)).adopt (Nat.ne_of_gt hx.lt)
  -- it is moved
  have hmove : step _ (.moveAssign x s.objects.length) = .ok _ :=
    moveAssign_eq hx' hz (Nat.ne_of_lt hx.lt)
  have hmoved := step_inv hnew hmove
  have hvalues := moveAssign_values hnew hx' hz
  rw [moveAssign_eq hx' hz (Nat.ne_of_lt hx.lt)] at hvalues
  have hcontents := Except.ok.inj hvalues
  rw [contents_constructed hs, set_concat length_contents, List.set_append_left _ _
    (length_contents ▸ hx.lt)] at hcontents
  -- and destroyed
  obtain ⟨r, hr⟩ : ∃ r, Holds _ s.objects.length r [] := hmoved.holds_of_value (value_eq_ok.mpr (by
    rw [hcontents, List.getElem?_append_right (by rw [List.length_set, length_contents]),
      List.length_set, length_contents, Nat.sub_self]
    rfl))
  have hdestroy : step _ (.destroy s.objects.length) = .ok _ := destroy_eq hr
  have hend := step_inv hmoved hdestroy
  obtain ⟨q, hq⟩ : ∃ q, Holds _ x q zs := hend.holds_of_value (value_eq_ok.mpr (by
    rw [Owners.contents_release hmoved.tidy.owned rfl, hcontents,
      List.getElem?_set_ne (Nat.ne_of_gt hx.lt), List.getElem?_append_left (by
        rw [List.length_set, length_contents]
        exact hx.lt), List.getElem?_set_self (by rw [length_contents]; exact hx.lt)]))
  refine ⟨_, q, zs, ?_, hq, ⟨?_, ?_⟩, hend⟩
  · exact runFrom_cons.mpr ⟨_, hzs, runFrom_cons.mpr ⟨_, hmove,
      runFrom_cons.mpr ⟨_, hdestroy, rfl⟩⟩⟩
  · rw [hlen, hbytes', List.length_append, List.length_take, List.length_replicate,
      ← hbytes.length]
    omega
  · rw [hfront, hbytes', List.take_left' (by rw [List.length_take]; omega), hbytes.front,
      List.take_left' (by rw [List.length_take, ← hbytes.length]; omega)]

end CometBt.Buffers
