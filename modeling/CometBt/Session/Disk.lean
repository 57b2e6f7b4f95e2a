import CometBt.Lib.Blocks
import CometBt.Lib.Runs
import CometBt.Session.Outcomes

/-!
# The output file (`write_piece` and `save_piece` in `src/session.cpp`)

A file is its bytes. `write_piece` opens it with `std::ios::binary` alone, which truncates it, goes
to `m_index` times 256 KiB in an `int`, whatever the length of the pieces, and writes what has been
received of the piece.

* `save_run`: so of all pieces that are saved the file has the last, behind zeros.
* `accumulates_iff`: exactly when that is what it should have.
-/

namespace CometBt

open Lib

/-! ## Writing -/

/-- The file written from `pos` on. What lies between its end and `pos` becomes zeros, and writing
nothing changes nothing. -/
def writeAt (file : List UInt8) (pos : Nat) (bs : List UInt8) : List UInt8 :=
  if bs = [] then file
  else file.take pos ++ List.replicate (pos - file.length) 0 ++ bs ++ file.drop (pos + bs.length)

/-- `std::ofstream output(filename, std::ios::binary)`: the mode is `out | binary`. -/
def openBinary (_file : List UInt8) : List UInt8 := []

/-- The bytes that `write(data, size())` reads. -/
def Piece.received (p : Piece) : Except Abort (List UInt8) :=
  if 0 ≤ p.receivedBytes ∧ p.receivedBytes ≤ p.data.length then
    .ok (p.data.take p.receivedBytes.toNat)
  else .error .outOfRange

/-- The distance of the pieces in the file. -/
def stride : Nat := 1024 * 256

/-- `write_piece`. After a seek to a negative offset nothing is written. -/
def writePiece (file : List UInt8) (p : Piece) : Except Abort (List UInt8) := do
  let output := openBinary file
  let offset ← int32 (p.index * stride)
  let bytes ← p.received
  if offset < 0 then return output
  return writeAt output offset.toNat bytes

/-- `save_piece`. -/
def savePiece (pieces : List Piece) (file : List UInt8) (index : Int) :
    Except Abort (List UInt8) := do
  let p ← getPiece pieces index
  writePiece file p

/-! ## What the file has -/

/-- The bytes of a file of which `d` has been written at `o`. -/
theorem getElem?_writeAt_nil {d : List UInt8} (hd : d ≠ []) (o x : Nat) :
    (writeAt [] o d)[x]? = if x < o then some 0 else d[x - o]? := by
  unfold writeAt
  rw [if_neg hd, List.take_nil, List.nil_append, List.drop_nil, List.append_nil, List.length_nil,
    Nat.sub_zero]
  split_ifs with hx
  · rw [List.getElem?_append_left (by rwa [List.length_replicate]), List.getElem?_replicate,
      if_pos hx]
  · rw [List.getElem?_append_right (by rw [List.length_replicate]; omega), List.length_replicate]

/-- All bytes are zero. -/
def Blank (d : List UInt8) : Prop := ∀ b ∈ d, b = 0

theorem blank_iff {d : List UInt8} : Blank d ↔ ∀ x < d.length, d[x]? = some 0 := by
  constructor
  · intro h x hx
    rw [List.getElem?_eq_getElem hx, h _ (List.getElem_mem hx)]
  · intro h b hb
    obtain ⟨x, hx, rfl⟩ := List.mem_iff_getElem.mp hb
    exact Option.some.inj ((List.getElem?_eq_getElem hx).symm.trans (h x hx))

/-- The file has the bytes `e` from `a` on. -/
theorem spanOf_eq_iff {f e : List UInt8} {a : Nat} :
    spanOf f (a, e.length) = e ↔ ∀ x < e.length, f[a + x]? = e[x]? := by
  unfold spanOf
  simp only
  constructor
  · intro h x hx
    rw [← List.getElem?_drop, ← List.getElem?_take_of_lt hx, h]
  · intro h
    refine List.ext_getElem? fun x => ?_
    by_cases hx : x < e.length
    · rw [List.getElem?_take_of_lt hx, List.getElem?_drop, h x hx]
    · rw [List.getElem?_eq_none (by rw [List.length_take]; omega), List.getElem?_eq_none (by omega)]

section Pieces

variable {d : Nat → List UInt8} {P i j : Nat}

/-- A piece at the place of another is found there only if both have the same bytes. -/
theorem blank_of_shift {e : List UInt8} {m : Nat} (hm : 0 < m)
    (h : ∀ x < e.length, (if x < m then some 0 else e[x - m]?) = e[x]?) : Blank e := by
  refine blank_iff.mpr fun x => ?_
  induction x using Nat.strong_induction_on with
  | _ x ih =>
    intro hx
    rw [← h x hx]
    split_ifs with hlt
    · rfl
    · exact ih (x - m) (by omega) (by omega)

/-- The piece `i` is in a file that has the piece `j`. -/
def FoundAt (d : Nat → List UInt8) (P i j : Nat) : Prop :=
  spanOf (writeAt [] (j * stride) (d j)) (i * P, P) = d i

/-- `FoundAt`, byte by byte. -/
theorem foundAt_iff (hi : (d i).length = P) (hj : (d j).length = P) (hP : 0 < P) :
    FoundAt d P i j ↔ ∀ x < P, (if i * P + x < j * stride then some 0
      else (d j)[i * P + x - j * stride]?) = (d i)[x]? := by
  have hne : d j ≠ [] := fun hnil => by
    rw [hnil, List.length_nil] at hj
    omega
  unfold FoundAt
  subst hi
  rw [spanOf_eq_iff]
  simp only [getElem?_writeAt_nil hne]

/-- What is found lies inside the file. -/
theorem FoundAt.le (h : FoundAt d P i j) (hi : (d i).length = P) (hj : (d j).length = P)
    (hP : 0 < P) : i * P ≤ j * stride := by
  have hlast := (foundAt_iff hi hj hP).mp h (P - 1) (by omega)
  rw [List.getElem?_eq_getElem (l := d i) (by omega)] at hlast
  by_contra hgt
  rw [if_neg (by omega), List.getElem?_eq_none (by omega)] at hlast
  exact absurd hlast (by simp)

/-- The piece `j` was the last that was saved, and the file has all those of `order`. -/
def AllFound (d : Nat → List UInt8) (P : Nat) (order : List Nat) (j : Nat) : Prop :=
  ∀ i ∈ order, FoundAt d P i j

/-- The pieces of `order` can be found after `j` has been saved: it is at its place, and the others
are zeros before it, or everything is zeros. -/
def Findable (d : Nat → List UInt8) (P : Nat) (order : List Nat) (j : Nat) : Prop :=
  ((j = 0 ∨ P = stride) ∧ ∀ i ∈ order, i = j ∨ i < j ∧ Blank (d i)) ∨
    ∀ i ∈ order, Blank (d i) ∧ i * P ≤ j * stride

/-- At its own place a piece is found if that is where it was written. -/
theorem foundAt_self (hj : (d j).length = P) (hP : 0 < P) (hplace : j = 0 ∨ P = stride) :
    FoundAt d P j j := by
  have hsame : j * P = j * stride := by
    rcases hplace with rfl | rfl
    · rw [Nat.zero_mul, Nat.zero_mul]
    · rfl
  refine (foundAt_iff hj hj hP).mpr fun x _ => ?_
  rw [hsame, if_neg (by omega), Nat.add_sub_cancel_left]

/-- Zeros are found before the piece that was written. -/
theorem foundAt_blank (hi : (d i).length = P) (hj : (d j).length = P) (hP : 0 < P)
    (hblank : Blank (d i)) (hbefore : (i + 1) * P ≤ j * stride) : FoundAt d P i j := by
  refine (foundAt_iff hi hj hP).mpr fun x hx => ?_
  rw [Nat.succ_mul] at hbefore
  rw [if_pos (by omega), blank_iff.mp hblank x (by omega)]

theorem findable_found {order : List Nat} (hlen : ∀ i ∈ order, (d i).length = P)
    (hj : j ∈ order) (h : Findable d P order j) : AllFound d P order j := by
  intro i hi
  rcases Nat.eq_zero_or_pos P with rfl | hP
  · have hnil := List.length_eq_zero_iff.mp (hlen i hi)
    unfold FoundAt spanOf
    rw [hnil, List.take_zero]
  rcases h with ⟨hplace, hall⟩ | hall
  · rcases hall i hi with rfl | ⟨hlt, hblank⟩
    · exact foundAt_self (hlen i hi) hP hplace
    · refine foundAt_blank (hlen i hi) (hlen j hj) hP hblank ?_
      rcases hplace with rfl | rfl
      · omega
      · exact Nat.mul_le_mul_right _ hlt
  · obtain ⟨hblank, hle⟩ := hall i hi
    have hzero := blank_iff.mp (hall j hj).1
    refine (foundAt_iff (hlen i hi) (hlen j hj) hP).mpr fun x hx => ?_
    rw [blank_iff.mp hblank x (by rw [hlen i hi]; exact hx)]
    split_ifs with hbefore
    · rfl
    · exact hzero _ (by rw [hlen j hj]; omega)

/-- Where the last piece is not at its place, all pieces that are found are zeros. -/
theorem found_blank {order : List Nat} (hlen : ∀ i ∈ order, (d i).length = P) (hj : j ∈ order)
    (hP : 0 < P) (hplace : ¬ (j = 0 ∨ P = stride)) (h : AllFound d P order j) :
    ∀ i ∈ order, Blank (d i) := by
  have hjP := (h j hj).le (hlen j hj) (hlen j hj) hP
  have hlt : j * P < j * stride := by
    refine lt_of_le_of_ne hjP fun heq => hplace ?_
    rcases Nat.eq_zero_or_pos j with hzero | hpos
    · exact .inl hzero
    · exact .inr (Nat.eq_of_mul_eq_mul_left hpos heq)
  have hlast : Blank (d j) := by
    refine blank_of_shift (m := j * stride - j * P) (by omega) fun x hx => ?_
    have hx' := (foundAt_iff (hlen j hj) (hlen j hj) hP).mp (h j hj) x (by rwa [← hlen j hj])
    rw [← hx']
    by_cases hbefore : j * P + x < j * stride
    · rw [if_pos hbefore, if_pos (by omega)]
    · rw [if_neg hbefore, if_neg (by omega)]
      congr 1
      omega
  intro i hi
  refine blank_iff.mpr fun x hx => ?_
  rw [hlen i hi] at hx
  have hle := (h i hi).le (hlen i hi) (hlen j hj) hP
  rw [← (foundAt_iff (hlen i hi) (hlen j hj) hP).mp (h i hi) x hx]
  split_ifs with hbefore
  · rfl
  · exact blank_iff.mp hlast _ (by rw [hlen j hj]; omega)

/-- **All pieces are found exactly if they are findable.** -/
theorem allFound_iff {order : List Nat} (hlen : ∀ i ∈ order, (d i).length = P) (hj : j ∈ order) :
    AllFound d P order j ↔ Findable d P order j := by
  refine ⟨fun h => ?_, findable_found hlen hj⟩
  rcases Nat.eq_zero_or_pos P with rfl | hP
  · refine .inr fun i hi => ⟨?_, by rw [Nat.mul_zero]; exact Nat.zero_le _⟩
    rw [List.length_eq_zero_iff.mp (hlen i hi)]
    exact fun b hb => absurd hb List.not_mem_nil
  by_cases hplace : j = 0 ∨ P = stride
  · refine .inl ⟨hplace, fun i hi => ?_⟩
    have hle := (h i hi).le (hlen i hi) (hlen j hj) hP
    have hij : i ≤ j := by
      rcases hplace with rfl | rfl
      · rw [Nat.zero_mul] at hle
        exact (Nat.le_of_mul_le_mul_right (by rwa [Nat.zero_mul]) hP)
      · exact Nat.le_of_mul_le_mul_right hle hP
    rcases Nat.eq_or_lt_of_le hij with heq | hlt
    · exact .inl heq
    · refine .inr ⟨hlt, blank_iff.mpr fun x hx => ?_⟩
      rw [hlen i hi] at hx
      have hstride : P = stride := by
        rcases hplace with rfl | hstride
        · omega
        · exact hstride
      have hnext : (i + 1) * P ≤ j * P := Nat.mul_le_mul_right _ hlt
      rw [Nat.succ_mul] at hnext
      rw [← (foundAt_iff (hlen i hi) (hlen j hj) hP).mp (h i hi) x hx, ← hstride,
        if_pos (by omega)]
  · exact .inr fun i hi => ⟨found_blank hlen hj hP hplace h i hi,
      (h i hi).le (hlen i hi) (hlen j hj) hP⟩

end Pieces

/-! ## Saving pieces -/

/-- The piece `i` is complete: `P` bytes, all received. -/
def CompleteAt (P : Nat) (pieces : List Piece) (i : Nat) : Prop :=
  ∃ p, pieces[i]? = some p ∧ p.index = i ∧ p.data.length = P ∧ p.receivedBytes = P

/-- The bytes of the piece `i`. -/
def pieceData (pieces : List Piece) (i : Nat) : List UInt8 :=
  match pieces[i]? with
  | some p => p.data
  | none => []

theorem CompleteAt.length {P i : Nat} {pieces : List Piece} (h : CompleteAt P pieces i) :
    (pieceData pieces i).length = P := by
  obtain ⟨p, hp, -, hlen, -⟩ := h
  unfold pieceData
  simp only [hp]
  exact hlen

/-- The place of a piece is an `int` up to 8191. -/
theorem place_ok {i : Nat} : int32 ((i : Int) * stride) = .ok ((i : Int) * stride) ↔ i ≤ 8191 := by
  rw [Session.int32_eq_ok]
  unfold maxInt stride
  omega

/-- **Saving a complete piece**, when it does not overflow, leaves that piece behind zeros. -/
theorem save_eq_ok {P i : Nat} {pieces : List Piece} {file f : List UInt8}
    (h : CompleteAt P pieces i) : savePiece pieces file i = .ok f ↔
      i ≤ 8191 ∧ f = writeAt [] (i * stride) (pieceData pieces i) := by
  obtain ⟨p, hp, hindex, hlen, hbytes⟩ := h
  have hget : getPiece pieces i = .ok p :=
    Session.getPiece_eq_ok.mpr ⟨Int.natCast_nonneg _, by rw [Int.toNat_natCast]; exact hp⟩
  have hreceived : p.received = .ok p.data := by
    unfold Piece.received
    rw [hbytes, hlen, if_pos ⟨Int.natCast_nonneg _, le_refl _⟩, Int.toNat_natCast, ← hlen,
      List.take_length]
  have hdata : pieceData pieces i = p.data := by
    unfold pieceData
    simp only [hp]
  have hoffset : ((i : Int) * stride).toNat = i * stride := by
    rw [← Int.natCast_mul, Int.toNat_natCast]
  have hnonneg : ¬ (i : Int) * stride < 0 := by
    rw [← Int.natCast_mul]
    omega
  rw [← place_ok, hdata]
  unfold savePiece
  constructor
  · intro h
    obtain ⟨p', hp', h⟩ := bind_eq_ok.mp h
    obtain rfl := Except.ok.inj (hget.symm.trans hp')
    obtain ⟨offset, hint, h⟩ := bind_eq_ok.mp h
    rw [hindex] at hint
    obtain ⟨-, rfl⟩ := Session.int32_eq_ok.mp hint
    obtain ⟨bytes, hrec, h⟩ := bind_eq_ok.mp h
    obtain rfl := Except.ok.inj (hreceived.symm.trans hrec)
    rw [if_neg hnonneg, hoffset] at h
    exact ⟨hint, (Except.ok.inj h).symm⟩
  · rintro ⟨hint, rfl⟩
    refine bind_eq_ok.mpr ⟨p, hget, bind_eq_ok.mpr ⟨_, hindex ▸ hint, bind_eq_ok.mpr
      ⟨p.data, hreceived, ?_⟩⟩⟩
    rw [hindex, if_neg hnonneg, hoffset]
    rfl

/-- **A run of saves leaves the last piece.** -/
theorem save_run {P : Nat} {pieces : List Piece} {order : List Nat} {j : Nat}
    (h : ∀ i ∈ order ++ [j], CompleteAt P pieces i) {file f : List UInt8} :
    runFrom (fun file (i : Nat) => savePiece pieces file i) file (order ++ [j]) = .ok f ↔
      (∀ i ∈ order ++ [j], i ≤ 8191) ∧ f = writeAt [] (j * stride) (pieceData pieces j) := by
  induction order generalizing file with
  | nil =>
    rw [List.nil_append, runFrom_cons]
    constructor
    · rintro ⟨g, hg, hrest⟩
      obtain rfl := Except.ok.inj hrest
      obtain ⟨hj, hf⟩ := (save_eq_ok (h j List.mem_cons_self)).mp hg
      refine ⟨fun i hi => ?_, hf⟩
      rw [List.mem_singleton.mp hi]
      exact hj
    · rintro ⟨hall, hf⟩
      exact ⟨f, (save_eq_ok (h j List.mem_cons_self)).mpr ⟨hall j List.mem_cons_self, hf⟩, rfl⟩
  | cons k order ih =>
    have hrest : ∀ i ∈ order ++ [j], CompleteAt P pieces i :=
      fun i hi => h i (List.mem_cons_of_mem _ hi)
    have hk := h k List.mem_cons_self
    rw [List.cons_append, runFrom_cons]
    constructor
    · rintro ⟨g, hg, hrun⟩
      obtain ⟨hall, hf⟩ := (ih hrest).mp hrun
      refine ⟨fun i hi => ?_, hf⟩
      rcases List.mem_cons.mp hi with rfl | hi
      · exact ((save_eq_ok hk).mp hg).1
      · exact hall i hi
    · rintro ⟨hall, hf⟩
      refine ⟨_, (save_eq_ok hk).mpr ⟨hall k List.mem_cons_self, rfl⟩, (ih hrest).mpr ⟨?_, hf⟩⟩
      exact fun i hi => hall i (List.mem_cons_of_mem _ hi)

/-- **The file accumulates the pieces**: after the pieces of `order` have been saved, it has each of
them at its index times the piece length. -/
def Accumulates (P : Nat) (pieces : List Piece) (order : List Nat) (file : List UInt8) : Prop :=
  ∃ f, runFrom (fun file (i : Nat) => savePiece pieces file i) file order = .ok f ∧
    ∀ i ∈ order, spanOf f (i * P, P) = pieceData pieces i

/-- **The file accumulates the pieces exactly if** no place overflows and the pieces before the last
are zeros, at the places where the last save leaves zeros. -/
theorem accumulates_iff (P : Nat) (pieces : List Piece) (order : List Nat) (file : List UInt8)
    (h : ∀ i ∈ order, CompleteAt P pieces i) :
    Accumulates P pieces order file ↔ ∀ j, order.getLast? = some j →
      (∀ i ∈ order, i ≤ 8191) ∧ Findable (pieceData pieces) P order j := by
  rcases List.eq_nil_or_concat order with rfl | ⟨front, j, rfl⟩
  · refine iff_of_true ⟨file, rfl, fun i hi => absurd hi List.not_mem_nil⟩ fun j hj => ?_
    exact absurd hj (by simp)
  · rw [List.concat_eq_append] at *
    have hlen : ∀ i ∈ front ++ [j], (pieceData pieces i).length = P := fun i hi => (h i hi).length
    have hj : j ∈ front ++ [j] := List.mem_append_right _ List.mem_cons_self
    rw [List.getLast?_concat]
    unfold Accumulates
    constructor
    · rintro ⟨f, hrun, hfound⟩ j' hj'
      obtain rfl := Option.some.inj hj'
      obtain ⟨hall, rfl⟩ := (save_run h).mp hrun
      exact ⟨hall, (allFound_iff hlen hj).mp hfound⟩
    · intro hcond
      obtain ⟨hall, hfind⟩ := hcond j rfl
      exact ⟨_, (save_run h).mpr ⟨hall, rfl⟩, (allFound_iff hlen hj).mpr hfind⟩

/-- A piece with these bytes, all received. -/
def completePiece (i : Nat) (data : List UInt8) : Piece :=
  { Piece.new i zeroDigest data.length with data, receivedBytes := data.length }

/-- Pieces as long as their distance in the file, the first all zeros, saved in their order. -/
theorem accumulates_behind_zeros :
    Accumulates stride [completePiece 0 (List.replicate stride 0),
      completePiece 1 (List.replicate stride 7)] [0, 1] [] := by
  have hzeros : (List.replicate stride (0 : UInt8)).length = stride := List.length_replicate
  have hsevens : (List.replicate stride (7 : UInt8)).length = stride := List.length_replicate
  have hblank : Blank (List.replicate stride 0) := fun _ hb => List.eq_of_mem_replicate hb
  generalize List.replicate stride (0 : UInt8) = zeros at hzeros hblank ⊢
  generalize List.replicate stride (7 : UInt8) = sevens at hsevens ⊢
  refine (accumulates_iff stride _ [0, 1] [] fun i hi => ?_).mpr fun j hj => ?_
  · rcases List.mem_pair.mp hi with rfl | rfl
    · exact ⟨_, rfl, rfl, hzeros, congrArg _ hzeros⟩
    · exact ⟨_, rfl, rfl, hsevens, congrArg _ hsevens⟩
  · obtain rfl : 1 = j := Option.some.inj hj
    refine ⟨by decide, .inl ⟨.inr rfl, fun i hi => ?_⟩⟩
    rcases List.mem_pair.mp hi with rfl | rfl
    · exact .inr ⟨by decide, hblank⟩
    · exact .inl rfl

/-- Two pieces of four bytes: after the second and then the first have been saved, the second is
gone. -/
theorem second_piece_lost :
    ¬ Accumulates 4 [completePiece 0 [1, 2, 3, 4], completePiece 1 [5, 6, 7, 8]] [1, 0] [] := by
  rintro ⟨f, hrun, hfound⟩
  obtain rfl := Except.ok.inj hrun
  exact absurd (hfound 1 List.mem_cons_self) (by decide)

end CometBt
