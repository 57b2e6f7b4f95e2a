import CometBt.Session.Announcing
import CometBt.Session.Disk

/-!
# From the hash to the disk

`fetch_piece` compares the hash of a piece and `try_download` queues a `save_piece` job, which runs
later and reads the piece as it is then. In between, `handle_piece` takes blocks for any piece and
`on_remote_close` clears the piece of its connection; and `fetch_piece` hashes what has been
received, be it the whole piece or not.

* `Saving`: the session with the jobs and the file, each job one step.
* `Sound`: what has been written, and what the jobs that wait would write, has been verified.
* `always_sound_iff`: it is so in exactly the runs without these three.
-/

namespace CometBt

open Lib Session

/-- A session, its jobs that have not run, the file, and what has been written of which piece. -/
structure Saving where
  delivery : Delivery
  jobs : List Int := []
  file : List UInt8 := []
  written : List (Int × List UInt8) := []

/-- What happens next. -/
inductive Task where
  /-- An event of the session. -/
  | session (e : Event)
  /-- A worker runs the `n`-th job. -/
  | work (n : Nat)
  deriving Repr

namespace Saving

/-- One step. What the session has saved is queued. -/
def step (sha1 : List UInt8 → Digest) (s : Saving) : Task → Except Abort Saving
  | .session e => do
    let delivery ← Delivery.step sha1 s.delivery e
    return { s with
      delivery
      jobs := s.jobs ++ delivery.session.saves.drop s.delivery.session.saves.length }
  | .work n =>
    match s.jobs[n]? with
    | none => .ok s
    | some i => do
      let p ← getPiece s.delivery.session.pieces i
      let bytes ← p.received
      let file ← savePiece s.delivery.session.pieces s.file i
      return { s with
        jobs := s.jobs.eraseIdx n
        file
        written := s.written ++ [(i, bytes)] }

/-- `session::start`, with nothing saved. -/
def initial (pieceLength : Int) (hashes : List Digest) (peers : Nat) : Saving where
  delivery := .initial pieceLength hashes peers

/-- A full piece with the hash that the metainfo has for it. -/
def Verified (sha1 : List UInt8 → Digest) (pieceLength : Int) (hashes : List Digest)
    (w : Int × List UInt8) : Prop :=
  0 ≤ w.1 ∧ hashes[w.1.toNat]? = some (sha1 w.2) ∧ (w.2.length : Int) = pieceLength

/-- What has been written has been verified, and so has what each job that waits would write. -/
structure Sound (sha1 : List UInt8 → Digest) (pieceLength : Int) (hashes : List Digest)
    (s : Saving) : Prop where
  written : ∀ w ∈ s.written, Verified sha1 pieceLength hashes w
  waiting : ∀ i ∈ s.jobs, ∃ p bytes, getPiece s.delivery.session.pieces i = .ok p ∧
    p.received = .ok bytes ∧ Verified sha1 pieceLength hashes (i, bytes)

/-- What comes next leaves the pieces alone that are going to be saved: no block with bytes comes
for one, and no connection that works on one with bytes closes. And a piece is completed only with
all its bytes. -/
def Careful (sha1 : List UInt8 → Digest) (s : Saving) : Task → Prop
  | .session (.message k msg) => s.delivery.session.isOpen k = true →
      ∀ rest, msg = MessageId.piece.toByte :: rest → deserializeInt rest ∈ s.jobs →
        rest.drop 8 = []
  | .session (.close k) => ∀ c, s.delivery.session.peers[k]? = some c → c.closed = false →
      c.currPiece ∈ s.jobs → ∀ p, getPiece s.delivery.session.pieces c.currPiece = .ok p →
        p.receivedBytes = 0
  | .session (.callback n) => ∀ params c, s.delivery.pending[n]? = some params →
      s.delivery.session.peers[params.peer]? = some c → Takes params c →
        Completes sha1 s.delivery.session c params.index → ∀ p,
          getPiece s.delivery.session.pieces (pieceFor c params.index) = .ok p →
            p.receivedBytes = p.pieceLength
  | .work _ => True

end Saving

namespace Session

variable {sha1 : List UInt8 → Digest} {s s' : Session} {k : Nat} {c : Peer} {p : Piece} {i : Int}

/-- The piece `i` is as it was when its hash was right, and all of it has been received. -/
def Intact (sha1 : List UInt8 → Digest) (s : Session) (i : Int) : Prop :=
  ∃ p, getPiece s.pieces i = .ok p ∧ p.receivedBytes = p.data.length ∧
    p.receivedBytes = p.pieceLength ∧ p.pieceHash = sha1 p.data

/-- What `Intact` looks at. -/
def content (p : Piece) : Int × Int × List UInt8 × Digest :=
  (p.receivedBytes, p.pieceLength, p.data, p.pieceHash)

theorem Intact.congr (h : Intact sha1 s i)
    (hmap : s'.pieces.map content = s.pieces.map content) : Intact sha1 s' i := by
  obtain ⟨p, hp, hbytes, hfull, hhash⟩ := h
  obtain ⟨hlo, hget⟩ := getPiece_eq_ok.mp hp
  have hcontent := congrArg (fun l => l[i.toNat]?) hmap
  simp only [List.getElem?_map, hget, Option.map_some] at hcontent
  obtain ⟨q, hq, heq⟩ := Option.map_eq_some_iff.mp hcontent
  obtain ⟨hreceived, hrest⟩ := Prod.mk.inj heq
  obtain ⟨hlength, hrest⟩ := Prod.mk.inj hrest
  obtain ⟨hdata, hash⟩ := Prod.mk.inj hrest
  exact ⟨q, getPiece_eq_ok.mpr ⟨hlo, hq⟩, by rw [hreceived, hdata, hbytes],
    by rw [hreceived, hlength, hfull], by rw [hash, hdata, hhash]⟩

theorem intact_congr (hmap : s'.pieces.map content = s.pieces.map content) :
    Intact sha1 s' i ↔ Intact sha1 s i :=
  ⟨fun h => h.congr hmap.symm, fun h => h.congr hmap⟩

/-- The piece `i` has been set. -/
theorem intact_setPiece_self {p' : Piece} (hp : getPiece s.pieces i = .ok p) :
    Intact sha1 (s.setPiece i p') i ↔ p'.receivedBytes = p'.data.length ∧
      p'.receivedBytes = p'.pieceLength ∧ p'.pieceHash = sha1 p'.data := by
  have hset : getPiece (s.setPiece i p').pieces i = .ok p' := getPiece_setPiece hp
  constructor
  · rintro ⟨q, hq, hrest⟩
    obtain rfl := Except.ok.inj (hset.symm.trans hq)
    exact hrest
  · intro hrest
    exact ⟨p', hset, hrest⟩

/-- Another piece has been set. -/
theorem intact_setPiece_ne {j : Int} {p' : Piece} (hj : 0 ≤ j) (hne : i ≠ j) :
    Intact sha1 (s.setPiece j p') i ↔ Intact sha1 s i := by
  unfold Intact
  simp only [getPiece_setPiece_ne hj hne]

/-- The bytes of an intact piece, and of no other, are verified. -/
theorem intact_iff {pieceLength : Int} {hashes : List Digest} {peers : Nat}
    (h : s.identities = (start pieceLength hashes peers).identities) :
    Intact sha1 s i ↔ ∃ p bytes, getPiece s.pieces i = .ok p ∧ p.received = .ok bytes ∧
      Saving.Verified sha1 pieceLength hashes (i, bytes) := by
  constructor
  · rintro ⟨p, hp, hreceived, hfull, hhash⟩
    obtain ⟨hlo, -, -, hhashes, hlength, -⟩ := piece_built h hp
    refine ⟨p, p.data, hp, ?_, hlo, hhash ▸ hhashes, hreceived.symm.trans (hfull.trans hlength)⟩
    unfold Piece.received
    rw [hreceived, if_pos ⟨Int.natCast_nonneg _, le_refl _⟩, Int.toNat_natCast, List.take_length]
  · rintro ⟨p, bytes, hp, hbytes, -, hhash, hlen⟩
    obtain ⟨-, -, -, hhashes, hlength, hdata⟩ := piece_built h hp
    unfold Piece.received at hbytes
    split_ifs at hbytes with hrange
    obtain rfl := Except.ok.inj hbytes
    dsimp only at hhash hlen
    rw [List.length_take] at hlen
    have hall : p.receivedBytes = p.data.length := by omega
    rw [hall, Int.toNat_natCast, List.take_length] at hhash
    exact ⟨p, hp, hall, by omega, Option.some.inj (hhashes.symm.trans hhash)⟩

/-- A piece that `fetch_piece` completes is intact if that was with all its bytes. -/
theorem Completes.intact_iff {index : Int} (h : Completes sha1 s c index)
    (hdata : ∀ p, getPiece s.pieces (pieceFor c index) = .ok p →
      p.data.length = p.pieceLength.toNat) :
    Intact sha1 s (pieceFor c index) ↔
      ∀ p, getPiece s.pieces (pieceFor c index) = .ok p → p.receivedBytes = p.pieceLength := by
  obtain ⟨p, hp, -, -, -, hhash⟩ := h
  constructor
  · rintro ⟨q, hq, -, hfull, -⟩ p' hp'
    obtain rfl := Except.ok.inj (hq.symm.trans hp')
    exact hfull
  · intro hfull
    unfold Piece.verifyIntegrity at hhash
    split_ifs at hhash with hrange
    have hfull := hfull p hp
    have hdata := hdata p hp
    have hlen : p.receivedBytes = p.data.length := by omega
    have hhash := of_decide_eq_true (Except.ok.inj hhash)
    rw [hlen, Int.toNat_natCast, List.take_length] at hhash
    exact ⟨p, hp, hlen, hfull, hhash⟩

/-- Copying nothing changes nothing. -/
theorem copyIn_nil {data bytes : List UInt8} {offset : Int}
    (h : Piece.copyIn data offset [] = .ok bytes) : bytes = data := by
  unfold Piece.copyIn at h
  split_ifs at h
  obtain rfl := Except.ok.inj h
  simp

/-- **A message** leaves an intact piece intact, unless it is a block for it with bytes. -/
theorem Messaged.intact_iff {msg : List UInt8} {post : Option SendParams}
    (hmsg : Messaged s k c msg s' post) (h : Intact sha1 s i) :
    Intact sha1 s' i ↔ ∀ rest, msg = MessageId.piece.toByte :: rest → deserializeInt rest = i →
      rest.drop 8 = [] := by
  cases hmsg with
  | bitfield =>
    exact iff_of_true h fun _ heq => absurd (List.cons.inj heq).1 (by decide)
  | unchoke hpop =>
    obtain ⟨queue, -, rfl⟩ := pop_eq_ok.mp hpop
    exact iff_of_true h fun _ heq => absurd (List.cons.inj heq).1 (by decide)
  | choke =>
    exact iff_of_true h fun _ heq => absurd (List.cons.inj heq).1 (by decide)
  | other _ _ _ hpiece =>
    exact iff_of_true h fun _ heq => absurd (List.cons.inj heq).1 hpiece
  | @piece rest p p' backlog hp hblock =>
    obtain ⟨bytes, hcopy, -, -, rfl⟩ := Download.incomingBlock_eq_ok.mp hblock
    by_cases hi : deserializeInt rest = i
    · subst hi
      obtain ⟨q, hq, hrest⟩ := h
      obtain rfl := Except.ok.inj (hp.symm.trans hq)
      rw [intact_setPiece_self hp]
      constructor
      · rintro ⟨hbytes, -, -⟩ rest' heq -
        obtain rfl := (List.cons.inj heq).2
        have hlen := copyIn_length hcopy
        dsimp only at hbytes hlen
        exact List.eq_nil_of_length_eq_zero (by omega)
      · intro hempty
        have hempty := hempty rest rfl rfl
        simp only [hempty] at hcopy ⊢
        obtain rfl := copyIn_nil hcopy
        simpa using hrest
    · refine iff_of_true ((intact_setPiece_ne (getPiece_eq_ok.mp hp).1 (Ne.symm hi)).mpr h) ?_
      intro rest' heq hi'
      obtain rfl := (List.cons.inj heq).2
      exact absurd hi' hi

/-- **A close** leaves an intact piece intact, unless the connection works on it and clears it. -/
theorem Closed.intact_iff (hclose : Closed s k c s') (h : Intact sha1 s i) (hi : i ≠ -1) :
    Intact sha1 s' i ↔
      (c.currPiece = i → ∀ p, getPiece s.pieces i = .ok p → p.receivedBytes = 0) := by
  cases hclose with
  | idle hcurr => exact iff_of_true h fun heq => absurd (heq.symm.trans hcurr) hi
  | @busy p p' _ hp hreset =>
    by_cases heq : c.currPiece = i
    · subst heq
      obtain ⟨bytes, hcopy, hreset⟩ := bind_eq_ok.mp hreset
      obtain rfl := Except.ok.inj hreset
      obtain ⟨q, hq, hrest⟩ := h
      obtain rfl := Except.ok.inj (hp.symm.trans hq)
      refine (intact_setPiece_self (s := s.setPeer k { c with closed := true }) hp).trans ?_
      constructor
      · rintro ⟨hbytes, -, -⟩ - q hq'
        obtain rfl := Except.ok.inj (hq.symm.trans hq')
        have hlen := copyIn_length hcopy
        dsimp only at hbytes
        omega
      · intro hzero
        have hzero := hzero rfl _ hp
        rw [hzero] at hcopy
        obtain rfl := copyIn_nil hcopy
        simpa [hzero] using hrest
    · exact iff_of_true
        ((intact_setPiece_ne (s := s.setPeer k { c with closed := true })
          (getPiece_eq_ok.mp hp).1 (Ne.symm heq)).mpr h) fun heq' => absurd heq' heq

theorem Fetched.content {index r : Int} (hf : Fetched sha1 s k index c p s' r)
    (hp : getPiece s.pieces (pieceFor c index) = .ok p) :
    s'.pieces.map Session.content = s.pieces.map Session.content :=
  hf.map_pieces Session.content hp fun _ _ _ => rfl

/-- **`try_download`** leaves every piece as it is, and has one saved only if it completes it. -/
theorem Tried.content {params : SendParams} (htried : Tried sha1 s params c s')
    (hc : s.peers[params.peer]? = some c) :
    s'.pieces.map Session.content = s.pieces.map Session.content ∧
      (s'.saves = s.saves ∧ ¬ (Takes params c ∧ Completes sha1 s c params.index) ∨
        Takes params c ∧ Completes sha1 s c params.index ∧
          s'.saves = s.saves ++ [pieceFor c params.index]) := by
  by_cases hdone : Takes params c ∧ Completes sha1 s c params.index
  · obtain ⟨next, rest, p, r, -, hp, hf⟩ := htried.completing hc hdone.1 hdone.2
    exact ⟨hf.content hp, .inr ⟨hdone.1, hdone.2, hf.saves⟩⟩
  · rcases htried.single hc hdone with ⟨-, rfl⟩ | ⟨-, p, hp, hf⟩
    · exact ⟨rfl, .inl ⟨rfl, hdone⟩⟩
    · exact ⟨hf.content hp, .inl ⟨hf.saves, hdone⟩⟩

end Session

namespace Saving

variable {sha1 : List UInt8 → Digest} {s s' : Saving} {pieceLength : Int} {hashes : List Digest}
  {peers : Nat}

/-- The pieces are the ones that were built. -/
def Built (pieceLength : Int) (hashes : List Digest) (peers : Nat) (s : Saving) : Prop :=
  s.delivery.session.identities = (Session.start pieceLength hashes peers).identities

/-- All the jobs that wait are for intact pieces. -/
theorem sound_iff (hbuilt : Built pieceLength hashes peers s)
    (hwritten : ∀ w ∈ s.written, Verified sha1 pieceLength hashes w) :
    Sound sha1 pieceLength hashes s ↔ ∀ i ∈ s.jobs, Intact sha1 s.delivery.session i := by
  constructor
  · intro h i hi
    exact (intact_iff hbuilt).mpr (h.waiting i hi)
  · intro h
    exact ⟨hwritten, fun i hi => (intact_iff hbuilt).mp (h i hi)⟩

theorem built_step {t : Task} (h : Built pieceLength hashes peers s)
    (hstep : step sha1 s t = .ok s') : Built pieceLength hashes peers s' := by
  cases t with
  | session e =>
    obtain ⟨d, hd, hstep⟩ := bind_eq_ok.mp hstep
    obtain rfl := Except.ok.inj hstep
    exact (Delivery.identities_step hd).trans h
  | work n =>
    simp only [step] at hstep
    split at hstep
    · obtain rfl := Except.ok.inj hstep
      exact h
    · obtain ⟨p, -, hstep⟩ := bind_eq_ok.mp hstep
      obtain ⟨bytes, -, hstep⟩ := bind_eq_ok.mp hstep
      obtain ⟨file, -, hstep⟩ := bind_eq_ok.mp hstep
      obtain rfl := Except.ok.inj hstep
      exact h

/-- All jobs are for intact pieces after an event that leads to `d`. -/
def JobsIntact (sha1 : List UInt8 → Digest) (s : Saving) (d : Delivery) : Prop :=
  ∀ i ∈ s.jobs ++ d.session.saves.drop s.delivery.session.saves.length, Intact sha1 d.session i

/-- Nothing new is saved. -/
theorem jobsIntact_same {d : Delivery} (hsaves : d.session.saves = s.delivery.session.saves) :
    JobsIntact sha1 s d ↔ ∀ i ∈ s.jobs, Intact sha1 d.session i := by
  unfold JobsIntact
  rw [hsaves, List.drop_length, List.append_nil]

/-- **`try_download`** adds a job for a piece that is intact if it has all its bytes. -/
theorem tried_jobs {n : Nat} {params : SendParams} {c : Peer} {session : Session}
    (hbuilt : Built pieceLength hashes peers s)
    (h : ∀ i ∈ s.jobs, Intact sha1 s.delivery.session i)
    (hc : s.delivery.session.peers[params.peer]? = some c)
    (htried : Tried sha1 s.delivery.session params c session) :
    JobsIntact sha1 s ⟨session, s.delivery.pending.eraseIdx n⟩ ↔ (Takes params c →
      Completes sha1 s.delivery.session c params.index → ∀ p,
        getPiece s.delivery.session.pieces (pieceFor c params.index) = .ok p →
          p.receivedBytes = p.pieceLength) := by
  obtain ⟨hcontent, ⟨hsame, hnot⟩ | ⟨htakes, hdone, hnew⟩⟩ := htried.content hc
  · rw [jobsIntact_same hsame]
    refine iff_of_true (fun i hi => (Session.intact_congr hcontent).mpr (h i hi)) ?_
    exact fun htakes hdone => absurd ⟨htakes, hdone⟩ hnot
  · have hdata : ∀ p, getPiece s.delivery.session.pieces (pieceFor c params.index) = .ok p →
        p.data.length = p.pieceLength.toNat := by
      intro p hp
      obtain ⟨-, -, -, -, hlen, hdata⟩ := piece_built hbuilt hp
      rw [hdata, hlen]
    unfold JobsIntact
    simp only [hnew, List.drop_left, Session.intact_congr hcontent]
    constructor
    · intro hall _ _
      exact (hdone.intact_iff hdata).mp
        (hall _ (List.mem_append_right _ (List.mem_singleton_self _)))
    · intro hfull i hi
      rcases List.mem_append.mp hi with hi | hi
      · exact h i hi
      · rw [List.mem_singleton.mp hi]
        exact (hdone.intact_iff hdata).mpr (hfull htakes hdone)

/-- **An event of the session** leaves the jobs with intact pieces if it is careful, and not
otherwise. -/
theorem session_jobs {d : Delivery} {e : Event} (hbuilt : Built pieceLength hashes peers s)
    (h : ∀ i ∈ s.jobs, Intact sha1 s.delivery.session i)
    (hstep : Delivery.step sha1 s.delivery e = .ok d) :
    JobsIntact sha1 s d ↔ Careful sha1 s (.session e) := by
  have hbefore : JobsIntact sha1 s s.delivery := (jobsIntact_same rfl).mpr h
  cases e with
  | message k msg =>
    refine Delivery.message_iff hbefore hstep fun c session post _ _ hmsg => ?_
    rw [jobsIntact_same hmsg.handled.outputs.2]
    constructor
    · intro hall rest hrest hmem
      exact (hmsg.intact_iff (h _ hmem)).mp (hall _ hmem) rest hrest rfl
    · intro hcareful i hi
      refine (hmsg.intact_iff (h i hi)).mpr fun rest hrest hindex => ?_
      exact hcareful rest hrest (hindex ▸ hi)
  | callback n =>
    exact Delivery.callback_iff hbefore hstep fun _ _ _ _ hc htried => tried_jobs hbuilt h hc htried
  | close k =>
    refine Delivery.close_iff hbefore hstep fun c session hc _ hclose => ?_
    rw [jobsIntact_same hclose.outputs.2]
    have hindex : ∀ i ∈ s.jobs, i ≠ -1 := by
      intro i hi heq
      obtain ⟨p, hp, -⟩ := h i hi
      have hlo := (getPiece_eq_ok.mp hp).1
      omega
    constructor
    · intro hall hmem
      exact (hclose.intact_iff (h _ hmem) (hindex _ hmem)).mp (hall _ hmem) rfl
    · intro hcareful i hi
      refine (hclose.intact_iff (h i hi) (hindex i hi)).mpr fun heq => ?_
      subst heq
      exact hcareful hi

/-- **A step** keeps everything verified if it is careful, and not otherwise. -/
theorem sound_step {t : Task} (hbuilt : Built pieceLength hashes peers s)
    (h : Sound sha1 pieceLength hashes s) (hstep : step sha1 s t = .ok s') :
    Sound sha1 pieceLength hashes s' ↔ Careful sha1 s t := by
  have hbuilt' := built_step hbuilt hstep
  have hjobs := (sound_iff hbuilt h.written).mp h
  cases t with
  | session e =>
    obtain ⟨d, hd, hstep⟩ := bind_eq_ok.mp hstep
    obtain rfl := Except.ok.inj hstep
    exact (sound_iff hbuilt' h.written).trans (session_jobs hbuilt hjobs hd)
  | work n =>
    refine iff_of_true ?_ trivial
    simp only [step] at hstep
    split at hstep
    · obtain rfl := Except.ok.inj hstep
      exact h
    · rename_i i hi
      obtain ⟨p, hp, hstep⟩ := bind_eq_ok.mp hstep
      obtain ⟨bytes, hbytes, hstep⟩ := bind_eq_ok.mp hstep
      obtain ⟨file, -, hstep⟩ := bind_eq_ok.mp hstep
      obtain rfl := Except.ok.inj hstep
      refine ⟨fun w hw => ?_, fun j hj => h.waiting j ((List.eraseIdx_sublist _ _).subset hj)⟩
      rcases List.mem_append.mp hw with hw | hw
      · exact h.written w hw
      · -- the job was one of those that waited
        rw [List.mem_singleton.mp hw]
        obtain ⟨q, bytes', hq, hbytes', hverified⟩ := h.waiting i (List.mem_of_getElem? hi)
        obtain rfl := Except.ok.inj (hp.symm.trans hq)
        obtain rfl := Except.ok.inj (hbytes.symm.trans hbytes')
        exact hverified

/-- **Only verified data is written, in exactly the careful runs**: no block with bytes comes for a
piece that waits to be saved, no connection that works on such a piece closes, unless it has no
bytes, and a piece is completed only with all its bytes. -/
theorem always_sound_iff (sha1 : List UInt8 → Digest) (pieceLength : Int) (hashes : List Digest)
    (peers : Nat) (tasks : List Task) (s : Saving)
    (hrun : runFrom (step sha1) (initial pieceLength hashes peers) tasks = .ok s) :
    Always (step sha1) (Sound sha1 pieceLength hashes) (initial pieceLength hashes peers) tasks ↔
      Along (step sha1) (Careful sha1) (initial pieceLength hashes peers) tasks := by
  refine always_iff (J := Built pieceLength hashes peers) ?_ ?_ rfl ?_ hrun
  · intro s t s' hbuilt hstep
    exact built_step hbuilt hstep
  · intro s t s' hbuilt h hstep
    exact sound_step hbuilt h hstep
  · exact ⟨fun _ hw => absurd hw List.not_mem_nil, fun _ hi => absurd hi List.not_mem_nil⟩

/-- While no piece waits to be saved, every message is harmless. -/
theorem careful_messages {events : List Event} (h : s.jobs = [])
    (hevents : ∀ e ∈ events, ∃ k msg, e = .message k msg) :
    Along (step sha1) (Careful sha1) s (events.map .session) := by
  induction events generalizing s with
  | nil => trivial
  | cons e events ih =>
    obtain ⟨k, msg, rfl⟩ := hevents _ List.mem_cons_self
    refine ⟨fun _ _ _ hmem => absurd (h ▸ hmem) List.not_mem_nil, fun s' hs' => ?_⟩
    refine ih ?_ fun e he => hevents e (List.mem_cons_of_mem _ he)
    obtain ⟨d, hd, hs'⟩ := bind_eq_ok.mp hs'
    obtain rfl := Except.ok.inj hs'
    have hsaves : d.session.saves = s.delivery.session.saves := by
      rcases Delivery.message_cases hd with ⟨c, session, post, -, -, hmsg, rfl⟩ | ⟨-, rfl⟩
      · exact hmsg.handled.outputs.2
      · rfl
    simp only [h, hsaves, List.drop_length, List.append_nil]

/-- A connection with the piece 0 unchokes. -/
def unchoked : List Event := [.message 0 [5, 0, 0, 0, 0, 1], .message 0 [1]]

/-- The connection is asked for the piece, and sends it. -/
def downloaded : List Event :=
  unchoked ++ [.callback 0] ++ Delivery.sixteenBlocks ++ [.callback 0]

/-- A piece of sixteen bytes is downloaded and saved. -/
theorem sound_downloaded :
    Always (step fun _ => zeroDigest) (Sound (fun _ => zeroDigest) 16 [zeroDigest, zeroDigest])
      (initial 16 [zeroDigest, zeroDigest] 1) (downloaded.map .session ++ [.work 0]) := by
  obtain ⟨s, hrun⟩ : ∃ s, runFrom (step fun _ => zeroDigest)
      (initial 16 [zeroDigest, zeroDigest] 1) (downloaded.map .session ++ [.work 0]) = .ok s :=
    ⟨_, rfl⟩
  refine (always_sound_iff _ 16 [zeroDigest, zeroDigest] 1 _ s hrun).mpr ?_
  unfold downloaded
  simp only [List.map_append]
  refine along_append.mpr ⟨along_append.mpr ⟨along_append.mpr ⟨along_append.mpr ⟨?_, ?_⟩, ?_⟩,
    ?_⟩, fun _ _ => ⟨trivial, fun _ _ => trivial⟩⟩
  · refine careful_messages rfl fun e he => ?_
    rcases List.mem_cons.mp he with rfl | he
    · exact ⟨_, _, rfl⟩
    · exact ⟨_, _, List.mem_singleton.mp he⟩
  · intro s hs
    obtain rfl := Except.ok.inj hs
    refine ⟨fun params c hparams hc _ hdone => ?_, fun _ _ => trivial⟩
    obtain rfl := Option.some.inj hparams
    obtain rfl := Option.some.inj hc
    obtain ⟨p, hp, -, -, hfin, -⟩ := hdone
    obtain rfl := Except.ok.inj hp
    exact absurd hfin (by decide)
  · intro s hs
    obtain rfl := Except.ok.inj hs
    refine careful_messages rfl fun e he => ?_
    obtain ⟨i, -, rfl⟩ := List.mem_map.mp he
    exact ⟨_, _, rfl⟩
  · intro s hs
    obtain rfl := Except.ok.inj hs
    refine ⟨fun params c hparams hc _ _ p hp => ?_, fun _ _ => trivial⟩
    obtain rfl := Option.some.inj hparams
    obtain rfl := Option.some.inj hc
    obtain rfl := Except.ok.inj hp
    rfl

/-- A block comes for a piece that waits to be saved: more bytes would be written than it has. -/
theorem late_block_unsound :
    ∃ s, runFrom (step fun _ => zeroDigest) (initial 16 [zeroDigest, zeroDigest] 1)
        (downloaded.map .session ++ [.session (.message 0 [7, 0, 0, 0, 0, 0, 0, 0, 0, 1])]) =
          .ok s ∧
      step (fun _ => zeroDigest) s (.work 0) = .error .outOfRange ∧
      ¬ Sound (fun _ => zeroDigest) 16 [zeroDigest, zeroDigest] s := by
  refine ⟨_, rfl, rfl, fun h => ?_⟩
  obtain ⟨p, bytes, hp, hbytes, -⟩ := h.waiting 0 List.mem_cons_self
  obtain rfl := Except.ok.inj hp
  cases hbytes

end Saving

end CometBt
