import Mathlib.Data.List.Nodup
import CometBt.Receive.Messages

/-!
# Length prefixes are consumed once, as long as they are positive

`READ_MESSAGE_SIZE` moves past a length prefix by `reset`, but only where the length is positive: a
keep-alive returns before it, and a negative length falls through everything. The parser then stays
at those four bytes and reads them as a length again with every later call. So the law holds of a
run exactly when no such prefix comes up (`prefixes_consumed_iff`).
-/

namespace CometBt

namespace Progress

/-- What the reader keeps of the length prefixes it has seen. -/
structure PrefixesKept (q : Progress) : Prop where
  nodup : (q.prefixes.map Prod.fst).Nodup
  past : q.stage ≠ .badPrefix → ∀ x ∈ q.prefixes, x.1 + 4 ≤ q.offset
  bad : q.stage = .badPrefix → ∃ v, (q.offset, v) ∈ q.prefixes
  none : q.stage.authenticated = false → q.prefixes = []

/-- A unit that is no length prefix. -/
theorem PrefixesKept.advance {q q' : Progress} (h : q.PrefixesKept)
    (hbad : q.stage ≠ .badPrefix) (hbad' : q'.stage ≠ .badPrefix) (hpre : q'.prefixes = q.prefixes)
    (hoff : q.offset ≤ q'.offset)
    (hauth : q'.stage.authenticated = false → q.stage.authenticated = false) : q'.PrefixesKept := by
  refine ⟨by rw [hpre]; exact h.nodup, fun _ x hx => ?_, fun hsg => absurd hsg hbad', fun hq => ?_⟩
  · rw [hpre] at hx
    exact (h.past hbad x hx).trans hoff
  · rw [hpre]
    exact h.none (hauth hq)

theorem next_prefixesKept (info : PeerInfo) (q : Progress) (u : List UInt8)
    (hlen : q.need ≤ u.length) (h : q.PrefixesKept) : (q.next info u).PrefixesKept := by
  unfold next
  split <;> rename_i hsg
  · refine h.advance (by simp [hsg]) ?_ rfl (Nat.le_add_right _ _)
      (by simp [hsg, Stage.authenticated])
    simp only [Progress.advance]
    split <;> simp
  · refine h.advance (by simp [hsg]) ?_ rfl (Nat.le_add_right _ _)
      (by simp [hsg, Stage.authenticated])
    simp only [Progress.advance]
    split <;> simp
  · refine h.advance (by simp [hsg]) ?_ rfl (Nat.le_add_right _ _)
      (by simp [hsg, Stage.authenticated])
    simp only [Progress.advance]
    split <;> simp
  · have hpast := h.past (by simp [hsg])
    have hnodup : ((q.prefixes ++ [(q.offset, deserializeInt u)]).map Prod.fst).Nodup := by
      rw [List.map_append, List.map_singleton, List.nodup_append]
      refine ⟨h.nodup, List.nodup_singleton _, ?_⟩
      intro o ho o' ho'
      obtain ⟨x, hx, rfl⟩ := List.mem_map.mp ho
      rw [List.mem_singleton.mp ho']
      have := hpast x hx
      simp only
      omega
    have hfour : 4 ≤ u.length := by
      rw [need, hsg] at hlen
      exact hlen
    simp only
    split
    · refine ⟨hnodup, fun _ x hx => ?_, fun hbad => absurd hbad (by simp [Progress.advance]),
        fun hq => absurd hq (by simp [Progress.advance, Stage.authenticated])⟩
      simp only [Progress.advance]
      rcases List.mem_append.mp hx with hx | hx
      · have := hpast x hx
        omega
      · rw [List.mem_singleton.mp hx]
        simp only
        omega
    · exact ⟨hnodup, fun hne => absurd rfl hne, fun _ => ⟨_, List.mem_concat_self⟩,
        fun hq => absurd hq (by simp [Stage.authenticated])⟩
  · simp only
    split
    · exact h.advance (by simp [hsg]) (by simp [Progress.advance]) rfl (Nat.le_add_right _ _)
        (by simp [Progress.advance, Stage.authenticated])
    · exact h.advance (by simp [hsg]) (by simp) rfl (le_refl _) (by simp [Stage.authenticated])
  all_goals exact h

theorem readStream_prefixesKept (info : PeerInfo) (bs : List UInt8) :
    (readStream info bs).1.PrefixesKept :=
  (reader info).feed_induction (I := PrefixesKept) (next_prefixesKept info) ({}, [])
    ⟨List.nodup_nil, fun _ x hx => absurd hx List.not_mem_nil, fun hsg => absurd hsg (by simp),
      fun _ => rfl⟩ bs

end Progress

namespace Conn

variable {W E : Type}

/-- **The law of the length prefixes**: no offset of the stream has been interpreted as a length
prefix twice, and the parser has moved past each that has been, or disconnects. -/
def PrefixesConsumed (c : Conn W) : Prop :=
  (c.history.prefixes.map Prod.fst).Nodup ∧
    ∀ x ∈ c.history.prefixes, x.1 + 4 ≤ c.startOffset ∨ c.disconnect = true

theorem Rests.startOffset_eq {c : Conn W} {q : Progress} (h : Rests c q)
    (hq : q.stage ≠ .rejected) : c.startOffset = q.offset := by
  have hoff := h.offset_eq hq
  have hlen := h.wf.window_length
  unfold startOffset
  omega

/-- Where the parser is, in a stage that a length prefix can lead to. -/
theorem Waits.startOffset_eq {info : PeerInfo} {c : Conn W} {p : Progress × List UInt8}
    (h : Waits info c p) (hq : p.1.stage ≠ .rejected) : c.startOffset = p.1.offset := by
  cases h with
  | closed _ hrej => exact absurd hrej hq
  | opened _ _ _ hsim =>
    cases hsim with
    | tracks ht => exact ht.startOffset_eq
    | rests hr => exact hr.startOffset_eq hq

/-- At a length prefix that is not positive the parser stays. -/
theorem Waits.not_consumed {info : PeerInfo} {c : Conn W} {p : Progress × List UInt8}
    (h : Waits info c p) (hkept : p.1.PrefixesKept) (hbad : p.1.stage = .badPrefix) :
    ¬ c.PrefixesConsumed := by
  rintro ⟨-, hpast⟩
  obtain ⟨v, hv⟩ := hkept.bad hbad
  have hopen : c.disconnect = false := by
    cases h with
    | closed _ hrej => exact absurd (hrej.symm.trans hbad) (by simp)
    | opened _ _ _ hsim =>
      cases hsim with
      | tracks ht => exact ht.disconnect_eq
      | rests hr =>
        cases hr.held with
        | rejected hrej => exact absurd (hrej.symm.trans hbad) (by simp)
        | badPrefix _ hdis => exact hdis
        | stuck hstuck => exact absurd (hstuck.symm.trans hbad) (by simp)
  rcases hpast _ (h.logged.prefixes.subset hv) with hle | hdis
  · rw [h.startOffset_eq (by simp [hbad])] at hle
    simp only at hle
    omega
  · exact absurd (hdis.symm.trans hopen) (by simp)

/-- Where the parser waits it has moved past all length prefixes, if none was bad. -/
theorem Waits.consumed {info : PeerInfo} {c : Conn W} {p : Progress × List UInt8}
    (h : Waits info c p) (hkept : p.1.PrefixesKept) (hgood : p.1.stage ≠ .badPrefix) :
    c.PrefixesConsumed := by
  have hpre := h.logged.prefixes_eq hgood
  refine ⟨by rw [hpre]; exact hkept.nodup, fun x hx => Or.inl ?_⟩
  rw [hpre] at hx
  by_cases hrej : p.1.stage = .rejected
  · rw [hkept.none (by rw [hrej]; rfl)] at hx
    exact absurd hx List.not_mem_nil
  · rw [h.startOffset_eq hrej]
    exact hkept.past hgood x hx

/-- **Length prefixes are consumed exactly once if and only if they are positive.** In a run, in
whatever reads, the law holds of the connection if and only if the stream has no length prefix,
where the parser gets to one, that is zero or negative. -/
theorem prefixes_consumed_iff (H : Handlers W E) {info : PeerInfo} {w : W}
    {chunks : List (List UInt8)} (hfits : Fits H (fresh info w) chunks) {c : Conn W}
    (hrun : receiveAll H (fresh info w) chunks = .ok c) :
    c.PrefixesConsumed ↔ ¬ HasBadPrefix info chunks.flatten := by
  have hwaits := run_waits hfits hrun
  have hkept := Progress.readStream_prefixesKept info chunks.flatten
  rw [← badPrefix_iff]
  exact ⟨fun hcons hbad => hwaits.not_consumed hkept hbad hcons, hwaits.consumed hkept⟩

/-- Three prefixes that the reads cut, one of them with a part of its message only. -/
theorem prefixes_consumed_cut :
    ∃ c, receiveAll parseOnly (fresh zeroPeer ()) cutReads = .ok c ∧
      c.history.prefixes = [(68, 1), (73, 5), (82, 5)] ∧ c.startOffset = 86 ∧
      c.PrefixesConsumed := by
  have hfits := cutReads_fits
  obtain ⟨c, hc⟩ := cutReads_ok
  have hread : (readStream zeroPeer cutReads.flatten).1.stage = .message 5 ∧
      (readStream zeroPeer cutReads.flatten).1.offset = 86 ∧
      (readStream zeroPeer cutReads.flatten).1.prefixes = [(68, 1), (73, 5), (82, 5)] := by
    decide +kernel
  generalize cutReads = chunks at hfits hc hread ⊢
  have hwaits := run_waits hfits hc
  have hgood : ¬ HasBadPrefix zeroPeer chunks.flatten := fun hbad => by
    rw [← badPrefix_iff, hread.1] at hbad
    exact absurd hbad (by simp)
  refine ⟨c, hc, ?_, ?_, (prefixes_consumed_iff parseOnly hfits hc).mpr hgood⟩
  · rw [hwaits.logged.prefixes_eq (by rw [hread.1]; simp), hread.2.2]
  · rw [hwaits.startOffset_eq (by rw [hread.1]; simp), hread.2.1]

/-- **A keep-alive stays where it is**: its offset is read as a length prefix again when more bytes
come, and the message behind it is not dispatched. -/
theorem keepAlive_not_consumed :
    ∃ c, receiveAll parseOnly (fresh zeroPeer ())
        [zeroHandshake ++ ([0, 0, 0, 0] ++ encode [2])] = .ok c ∧
      ¬ c.PrefixesConsumed ∧ c.history.messages = [] := by
  have hfits : Fits parseOnly (fresh zeroPeer ())
      [zeroHandshake ++ ([0, 0, 0, 0] ++ encode [2])] := ⟨Or.inr (by decide), fun _ _ => trivial⟩
  have hstream : [zeroHandshake ++ ([0, 0, 0, 0] ++ encode [2])].flatten =
      zeroHandshake ++ ([0, 0, 0, 0] ++ encode [2]) := List.append_nil _
  generalize [zeroHandshake ++ ([0, 0, 0, 0] ++ encode [2])] = chunks at hfits hstream ⊢
  obtain ⟨c, hc⟩ := receiveAll_ok parseOnly hfits ⟨_, _, zeroHandshake_accepted, hstream⟩
    (by rw [hstream]; decide)
  have hbad : (readStream zeroPeer chunks.flatten).1.stage = .badPrefix ∧
      (readStream zeroPeer chunks.flatten).1.messages = [] := by
    rw [hstream]
    decide +kernel
  have hwaits := run_waits hfits hc
  refine ⟨c, hc, hwaits.not_consumed (Progress.readStream_prefixesKept _ _) hbad.1, ?_⟩
  rw [hwaits.logged.messages_eq (by rw [hbad.1]; simp), hbad.2]

end Conn

end CometBt
