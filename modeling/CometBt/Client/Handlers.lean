import CometBt.Client.System
import CometBt.Receive.Handling
import CometBt.Receive.Reading
import CometBt.Session.Backlog
import CometBt.Session.Frame

/-!
# The message handlers of a client

While the receive path of a connection is running, the session has to ask it for `m_choked`
(`view`). Seen so, what the handlers do is what messages do to the session (`handlers_act`).
-/

namespace CometBt

open Lib

/-! ## `m_choked` -/

namespace Session

variable {s : Session} {k : Nat} {p : Peer} {msg : List UInt8} {choked : Bool}

theorem setChoked_eq (hp : s.peers[k]? = some p) (choked : Bool) :
    s.setChoked k choked = s.setPeer k { p with choked } := by
  unfold setChoked setPeer
  obtain ⟨hlt, rfl⟩ := List.getElem?_eq_some_iff.mp hp
  congr 1
  refine List.ext_getElem? fun n => ?_
  rw [List.getElem?_modify, List.getElem?_set]
  split_ifs with hn
  · subst hn
    rw [List.getElem?_eq_getElem hlt]
    rfl
  · exact congrFun Option.map_id_fun' _

theorem peers_setChoked (hp : s.peers[k]? = some p) (choked : Bool) :
    (s.setChoked k choked).peers[k]? = some { p with choked } := by
  unfold setChoked
  rw [List.getElem?_modify_eq, hp]
  rfl

theorem setChoked_self (hp : s.peers[k]? = some p) : s.setChoked k p.choked = s := by
  rw [setChoked_eq hp]
  exact congrArg (fun peers => ({ s with peers } : Session)) (peers_set_self hp)

theorem setPeer_setPeer (s : Session) (k : Nat) (p q : Peer) :
    (s.setPeer k p).setPeer k q = s.setPeer k q := by
  unfold setPeer
  rw [List.set_set]

theorem pop_setPeer (s : Session) (k : Nat) (p : Peer) :
    (s.setPeer k p).pop = s.pop.map fun r => (r.1, r.2.setPeer k p) := by
  unfold pop setPeer
  cases s.workQueue with
  | nil => rfl
  | cons index rest => rfl

/-- `m_choked` does not matter to a `BITFIELD`. -/
theorem handleBitfield_setChoked (hp : s.peers[k]? = some p) :
    (s.setChoked k choked).handleBitfield k msg =
      (s.handleBitfield k msg).map (·.setChoked k choked) := by
  unfold handleBitfield
  rw [getPeer_eq_ok.mpr (peers_setChoked hp choked), getPeer_eq_ok.mpr hp, ok_bind, ok_bind]
  cases newBitfield (msg.drop 5) (msg.length - 5) with
  | error a => rfl
  | ok bits =>
    have hset : (s.setPeer k { p with bitfield := some bits }).peers[k]? = some _ :=
      List.getElem?_set_self (List.getElem?_eq_some_iff.mp hp).1
    refine congrArg Except.ok ?_
    show _ = Session.setChoked _ k choked
    rw [setChoked_eq hp, setPeer_setPeer, setChoked_eq hset, setPeer_setPeer]

/-- After an `UNCHOKE` the connection is unchoked, whatever `m_choked` was. -/
theorem handleUnchoke_setChoked (hp : s.peers[k]? = some p) :
    (s.setChoked k choked).handleUnchoke k =
      (s.handleUnchoke k).map fun r => (r.1.setChoked k false, r.2) := by
  unfold handleUnchoke
  rw [getPeer_eq_ok.mpr (peers_setChoked hp choked), getPeer_eq_ok.mpr hp, ok_bind, ok_bind,
    setChoked_eq hp, pop_setPeer]
  cases hpop : s.pop with
  | error a => rfl
  | ok r =>
    obtain ⟨index, s₁⟩ := r
    obtain ⟨rest, -, rfl⟩ := pop_eq_ok.mp hpop
    have hset : (({ s with workQueue := rest } : Session).setPeer k
        { p with choked := false }).peers[k]? = some _ :=
      List.getElem?_set_self (List.getElem?_eq_some_iff.mp hp).1
    refine congrArg (fun s => Except.ok (s, _)) ?_
    show _ = Session.setChoked _ k false
    rw [setChoked_eq hset]
    exact (setPeer_setPeer _ k _ _).trans (setPeer_setPeer _ k _ _).symm

/-- `m_choked` does not matter to a `PIECE`. -/
theorem handlePiece_setChoked (s : Session) (k : Nat) (msg : List UInt8) (choked : Bool) :
    (s.setChoked k choked).handlePiece k msg =
      (s.handlePiece k msg).map fun r => (r.1.setChoked k choked, r.2) := by
  unfold handlePiece
  by_cases hfive : msg.length < 5
  · simp only [if_pos hfive]
    rfl
  simp only [if_neg hfive]
  change (getPiece s.pieces _) >>= _ = Except.map _ ((getPiece s.pieces _) >>= _)
  cases getPiece s.pieces (deserializeInt (msg.drop 1)) with
  | error a => rfl
  | ok p =>
    rw [ok_bind, ok_bind]
    by_cases hnine : msg.length < 9
    · simp only [if_pos hnine]
      rfl
    simp only [if_neg hnine]
    cases p.incomingBlock ⟨deserializeInt (msg.drop 1), deserializeInt (msg.drop 5),
        msg.drop 9⟩ with
    | error a => rfl
    | ok p' =>
      rw [ok_bind, ok_bind]
      cases int32 (p'.backlog - 1) with
      | error a => rfl
      | ok backlog => rfl

/-- After a `CHOKE` the connection is choked, whatever `m_choked` was. -/
theorem handleChoke_setChoked (hp : s.peers[k]? = some p) :
    (s.setChoked k choked).handleChoke k = .ok (s.setChoked k true) := by
  unfold handleChoke
  rw [getPeer_eq_ok.mpr (peers_setChoked hp choked), ok_bind, setChoked_eq hp, setPeer_setPeer,
    setChoked_eq hp]
  rfl

end Session

/-! ## The world of a receive path -/

namespace Conn

variable {W V : Type} {info : PeerInfo} {c : Conn W}

theorem Logged.enter {q : Progress} (h : c.Logged q) (w : V) : (c.enter w).Logged q :=
  ⟨h.active, h.state, h.prefixes, h.prefixes_eq, h.messages, h.messages_eq⟩

/-- The world does not matter to the parser. -/
theorem Waits.enter {p : Progress × List UInt8} (h : Waits info c p) (w : V) :
    Waits info (c.enter w) p := by
  cases h with
  | closed hclosed hrej hlog => exact .closed hclosed hrej (hlog.enter w)
  | opened hready hclosed hq hsim =>
    have hready' : (c.enter w).Ready := ⟨hready.wf, hready.start_eq, hready.pos_eq, hready.chunk_eq,
      hready.size_eq, hready.size_pos⟩
    refine .opened hready' hclosed hq ?_
    cases hsim with
    | tracks ht hshort =>
      exact .tracks ⟨ht.wf, ht.window_eq, ht.pos_eq, ht.message_eq, ht.roomy, ht.state_eq,
        ht.info_eq, ht.choked_eq, ht.offset_eq, ht.disconnect_eq, ht.closed_eq,
        ht.logged.enter w⟩ hshort
    | rests hr hu =>
      refine .rests ⟨hr.wf, hr.finished, hr.roomy, hr.offset_eq, hr.closed_eq, hr.logged.enter w,
        ?_⟩ hu
      cases hr.held with
      | rejected hq hdis hst => exact .rejected hq hdis hst
      | badPrefix hq hdis hst hm hv => exact .badPrefix hq hdis hst hm hv
      | stuck hq hdis hst hch hhead => exact .stuck hq hdis hst hch hhead

end Conn

/-! ## The handlers -/

namespace Client

variable {k : Nat}

/-- What the session knows while the receive path of the connection `k` is running. -/
def view (k : Nat) (choked : Bool) (d : Delivery) : Delivery :=
  { d with session := d.session.setChoked k choked }

theorem isOpen_view (k : Nat) (choked : Bool) (d : Delivery) (j : Nat) :
    (view k choked d).session.isOpen j = d.session.isOpen j := by
  unfold view Session.setChoked Session.isOpen
  simp only [List.getElem?_modify]
  cases d.session.peers[j]? with
  | none => rfl
  | some p =>
    simp only
    split_ifs <;> rfl

theorem choked_of_view {choked : Bool} {d : Delivery} {p : Peer}
    (hp : (view k choked d).session.peers[k]? = some p) : p.choked = choked := by
  unfold view Session.setChoked at hp
  simp only [List.getElem?_modify_eq] at hp
  obtain ⟨q, -, rfl⟩ := Option.map_eq_some_iff.mp hp
  rfl

/-- **The handlers are the messages of the session.** -/
theorem handlers_act (sha1 : List UInt8 → Digest) (k : Nat) :
    Conn.Acts (handlers k) (view k) (fun d msg => Delivery.step sha1 d (.message k msg))
      (fun d => d.session.isOpen k = true) where
  handles := by
    intro b choked d hopen hne
    have hopen' := hopen
    rw [isOpen_view] at hopen'
    obtain ⟨p, hp, -⟩ := Delivery.isOpen_eq hopen'
    simp only [Delivery.step, if_pos hopen]
    unfold Session.doMessage Conn.effect
    obtain ⟨msgId, rest, hget⟩ := List.exists_cons_of_ne_nil hne
    simp only [hget, List.head?_cons, Option.some.injEq]
    rw [show (view k choked d).session = d.session.setChoked k choked from rfl]
    split_ifs with hbit hun hch hpiece
    · rw [Session.handleBitfield_setChoked hp]
      unfold handlers
      simp only [hget]
      cases d.session.handleBitfield k (msgId :: rest) with
      | error a => rfl
      | ok s =>
        refine congrArg Except.ok ?_
        show Delivery.mk _ _ = Delivery.mk _ _
        exact congrArg _ (List.append_nil _)
    · rw [Session.handleUnchoke_setChoked hp]
      unfold handlers
      simp only
      cases d.session.handleUnchoke k with
      | error a => rfl
      | ok r => rfl
    · rw [Session.handleChoke_setChoked hp]
      refine congrArg Except.ok ?_
      show Delivery.mk _ _ = Delivery.mk _ _
      exact congrArg _ (List.append_nil _)
    · rw [Session.handlePiece_setChoked]
      unfold handlers
      simp only [hget]
      cases d.session.handlePiece k (msgId :: rest) with
      | error a => rfl
      | ok r => rfl
    · refine congrArg Except.ok ?_
      show Delivery.mk _ _ = Delivery.mk _ _
      exact congrArg _ (List.append_nil _)
  keeps := by
    intro d msg d' hopen hstep
    obtain ⟨c, session, post, hc, hclosed, hmsg, rfl⟩ | ⟨hshut, rfl⟩ :=
      Delivery.message_cases hstep
    · obtain ⟨c', hclosed', hpeers⟩ := hmsg.handled.peers hc
      rw [← hopen, Session.isOpen_same hc hpeers hclosed']
    · exact hopen

end Client

end CometBt
