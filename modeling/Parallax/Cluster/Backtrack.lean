import Parallax.Cluster.Replication

/-! Finding where two logs part: the follower's search for a hint, the leader's scan from it, and the rounds of
rejected probes between the two. -/
namespace Parallax.Cluster
variable {r f : Raft} {xs ys : List Entry} {a p : Nat}

/-- A log whose terms are positive and do not decrease, compacted at most up to its commit index. -/
structure Rising (l : RaftLog) (xs : List Entry) : Prop where
  repr : l.Repr xs
  base_le : l.base.index ≤ l.committed
  mono : xs.Pairwise fun e e' => e.term ≤ e'.term
  pos : ∀ e ∈ xs, 0 < e.term

/-- Entries of one index and term have the same log up to them. -/
def LogsMatch (xs ys : List Entry) : Prop :=
  ∀ i, i < xs.length → i < ys.length → termAt xs (i + 1) = termAt ys (i + 1) → xs.take (i + 1) = ys.take (i + 1)

/-- Both logs have index `i`, with one term. -/
def Agree (xs ys : List Entry) (i : Nat) : Prop := i ≤ xs.length ∧ i ≤ ys.length ∧ termAt xs i = termAt ys i

instance (xs ys : List Entry) : Decidable (LogsMatch xs ys) := by
  unfold LogsMatch
  infer_instance

instance (xs ys : List Entry) (i : Nat) : Decidable (Agree xs ys i) := by
  unfold Agree
  infer_instance

/-- `m` probes the log `xs` at `p`, with entries that follow there. -/
structure Probes (xs : List Entry) (p : Nat) (m : Message) : Prop where
  type : m.type = .append
  logIndex : m.logIndex = p
  logTerm : m.logTerm = termAt xs p
  entries : m.entries <+: xs.drop p

theorem getElem?_of_lt {i : Nat} (h : i < xs.length) : ∃ e ∈ xs, xs[i]? = some e ∧ termAt xs (i + 1) = e.term := by
  have he := List.getElem?_eq_getElem h
  exact ⟨_,List.mem_of_getElem? he,he,termAt_succ_of_getElem? he⟩

theorem termAt_mono (h : xs.Pairwise fun e e' => e.term ≤ e'.term) {i j : Nat} (hij : i ≤ j) (hj : j ≤ xs.length) :
    termAt xs i ≤ termAt xs j := by
  rcases hij.eq_or_lt with rfl | hlt
  · exact le_rfl
  cases i with
  | zero => exact Nat.zero_le _
  | succ i =>
    obtain ⟨j,rfl⟩ : ∃ k, j = k + 1 := ⟨j - 1,by omega⟩
    have hi : i < xs.length := by omega
    have hj' : j < xs.length := by omega
    rw [termAt_succ_of_getElem? (List.getElem?_eq_getElem hi),
      termAt_succ_of_getElem? (List.getElem?_eq_getElem hj')]
    exact List.pairwise_iff_getElem.mp h i j hi hj' (by omega)

private theorem termAt_pos (h : ∀ e ∈ xs, 0 < e.term) {i : Nat} (hi : 0 < i) (hl : i ≤ xs.length) : 0 < termAt xs i := by
  obtain ⟨j,rfl⟩ : ∃ j, i = j + 1 := ⟨i - 1,by omega⟩
  obtain ⟨e,he,_,ht⟩ := getElem?_of_lt (show j < xs.length by omega)
  rw [ht]
  exact h e he

theorem Agree.below (h : Agree xs ys a) (hm : LogsMatch xs ys) {i : Nat} (hi : i ≤ a) :
    termAt xs i = termAt ys i := by
  obtain ⟨hx,hy,ht⟩ := h
  cases a with
  | zero => rw [Nat.le_zero.mp hi,termAt_zero,termAt_zero]
  | succ j => rw [← termAt_take hi,hm j hx hy ht,termAt_take hi]

theorem findConflictByTerm_spec (hr : f.raftLog.Repr ys) (hb : f.raftLog.base.index ≤ a) {t : Nat}
    (ht : termAt ys a ≤ t) {i : Nat} (hi : a ≤ i) :
    ∃ h, f.findConflictByTerm i t = (h,termAt ys h) ∧ a ≤ h ∧ h ≤ i ∧ termAt ys h ≤ t := by
  induction i with
  | zero => exact ⟨0,rfl,hi,le_rfl,by simp⟩
  | succ i ih =>
    unfold Raft.findConflictByTerm
    rw [hr.term_eq (by omega)]
    simp only
    by_cases hle : termAt ys (i + 1) ≤ t
    · rw [if_pos hle]
      exact ⟨i + 1,rfl,hi,le_rfl,hle⟩
    rw [if_neg hle]
    have hne : a ≠ i + 1 := by
      rintro rfl
      exact hle ht
    obtain ⟨h,he,ha,hh,hl⟩ := ih (by omega)
    exact ⟨h,he,ha,by omega,hl⟩

theorem scanHint_spec (hr : r.raftLog.Repr xs) {t : Nat} (ht : termAt xs a ≤ t) {i : Nat} (hi : a ≤ i) :
    a ≤ r.scanHint t i ∧ r.scanHint t i ≤ i ∧
      (r.raftLog.base.index ≤ i → t < termAt xs i → r.scanHint t i < i) := by
  induction i with
  | zero => exact ⟨hi,le_rfl,fun _ h => absurd h (Nat.not_lt_zero t)⟩
  | succ i ih =>
    unfold Raft.scanHint
    by_cases hb : r.raftLog.base.index ≤ i + 1
    · rw [hr.term_eq hb]
      simp only
      by_cases hle : termAt xs (i + 1) ≤ t
      · rw [if_pos hle]
        exact ⟨hi,le_rfl,fun _ h => by omega⟩
      rw [if_neg hle]
      have hne : a ≠ i + 1 := by
        rintro rfl
        exact hle ht
      obtain ⟨h1,h2,_⟩ := ih (by omega)
      exact ⟨h1,by omega,fun _ _ => by omega⟩
    -- Below the boundary a term reads as zero, which ends the scan.
    rw [hr.term_below (by omega)]
    simp only
    rw [if_pos (Nat.zero_le t)]
    exact ⟨hi,le_rfl,fun h => absurd h hb⟩

/-- What went out between two states of a node. -/
def queued (r r' : Raft) : List Message := r'.msgs.drop r.msgs.length

private theorem queued_send (r r' : Raft) (h : r'.msgs = r.msgs) (m : Message) :
    queued r (r'.send m) = [r'.stampMessage m] := by
  simp [queued,Raft.send,h]

/-- A leader, a follower, and the message on its way to the follower. -/
structure Exchange where
  leader : Raft
  follower : Raft
  msg : Message

namespace Exchange

/-- What the follower sends back. -/
def reply (x : Exchange) : Option Message := (queued x.follower (x.follower.handleAppend x.msg)).head?

/-- One round: a probe is rejected and the rejection processed, which sends the next message. -/
def round (x : Exchange) : Option Exchange :=
  if x.msg.type = .append then
    match x.reply with
    | some resp =>
      if resp.reject then
        let leader := x.leader.handleAppendResp resp
        (queued x.leader leader).head?.map fun m =>
          { leader := leader, follower := x.follower.handleAppend x.msg, msg := m }
      else none
    | none => none
  else none

def rounds (x : Exchange) : Nat → Option Exchange
  | 0 => some x
  | k + 1 => x.round.bind fun y => y.rounds k

/-- The follower takes the append, and does so without a panic. -/
def Accepted (x : Exchange) : Prop :=
  x.msg.type = .append ∧ x.reply.any (fun m => !m.reject) = true ∧
    (x.follower.handleAppend x.msg).failed = x.follower.failed

instance (x : Exchange) : Decidable x.Accepted := by
  unfold Accepted
  infer_instance

/-- The leader has compacted what the follower needs and sends its snapshot. -/
def Ships (x : Exchange) : Prop := x.msg.type = .installSnapshot

end Exchange

/-- Two logs that part at `a`, and a leader whose next entry for the follower is the one after `p`. -/
structure Parted (xs ys : List Entry) (a p : Nat) (r f : Raft) : Prop where
  leader : Rising r.raftLog xs
  saved : r.raftLog.unstable.snapshot = none
  follower : Rising f.raftLog ys
  logs : LogsMatch xs ys
  greatest : IsGreatest {i | Agree xs ys i} a
  commit : f.raftLog.committed ≤ a
  next : ∃ pr, r.prs.lookup f.id = some pr ∧ pr.next = p + 1
  le : p ≤ xs.length

/-- A rejection of the probe at `p`, its hint on the agreement or above. -/
structure Rejection (xs ys : List Entry) (a p id : Nat) (m : Message) : Prop where
  reject : m.reject = true
  sender : m.sender = id
  logIndex : m.logIndex = p
  beyond : a < p
  above : a ≤ m.rejectHint
  below : m.rejectHint ≤ p
  within : m.rejectHint ≤ ys.length
  hintTerm : m.hintTerm = termAt ys m.rejectHint
  strict : m.rejectHint = p → termAt ys p < termAt xs p

namespace Parted
variable {m : Message}

private theorem handleAppend_cases (h : Parted xs ys a p r f) (hm : Probes xs p m) :
    Exchange.Accepted ⟨r,f,m⟩ ∨ ∃ resp, Exchange.reply ⟨r,f,m⟩ = some resp ∧ Rejection xs ys a p f.id resp ∧
      (f.handleAppend m).raftLog = f.raftLog := by
  obtain ⟨hagx,hagy,hag⟩ := h.greatest.1
  have hF := h.follower.repr
  have hb := h.follower.base_le
  have hc := h.commit
  unfold Exchange.Accepted Exchange.reply Raft.handleAppend
  simp only [hm.logIndex]
  by_cases hlt : p < f.raftLog.committed
  · simp only [if_pos hlt,queued_send f f rfl]
    exact .inl ⟨hm.type,rfl,rfl⟩
  simp only [if_neg hlt]
  have hfrom : IndexedFrom p m.entries := by
    intro i e he
    obtain ⟨zs,hz⟩ := hm.entries
    have : (xs.drop p)[i]? = some e := by
      rw [← hz,List.getElem?_append_left (List.getElem?_eq_some_iff.mp he).1,he]
    rw [List.getElem?_drop] at this
    rw [h.leader.repr.indexed _ e this]
    omega
  have hpos : ∀ e ∈ m.entries, 0 < e.term := fun e he =>
    h.leader.pos e (List.mem_of_mem_drop (hm.entries.subset he))
  have hil : termAt ys p = m.logTerm → p ≤ ys.length := by
    intro ht
    rcases Nat.eq_zero_or_pos p with rfl | hp
    · exact Nat.zero_le _
    have := termAt_pos h.leader.pos hp h.le
    rw [hm.logTerm] at ht
    exact RaftLog.Repr.le_length_of_termAt_pos (by omega)
  rcases hF.maybeAppend m.commit (by omega) (by omega : f.raftLog.committed ≤ p) hfrom hpos hil with
    ⟨hne,hmb⟩ | ⟨_,l',hmb,_,_,hpan,_⟩
  · right
    rw [hm.logTerm] at hne
    have hap : a < p := by
      by_contra hle
      exact hne (Agree.below h.greatest.1 h.logs (by omega)).symm
    -- The agreement is at or below where the search starts, and its term is not above the leader's at `p`.
    have hta : termAt ys a ≤ m.logTerm := by
      rw [← hag,hm.logTerm]
      exact termAt_mono h.leader.mono hap.le h.le
    obtain ⟨i,hi,hai,hip,hit⟩ := findConflictByTerm_spec hF (by omega) hta (i := min p ys.length) (by omega)
    rw [hmb]
    simp only [hF.lastIndex,hi,queued_send f f rfl,List.head?_cons]
    rw [f.stampMessage_zero rfl (by simp [Raft.Stamped])]
    refine ⟨_,rfl,⟨rfl,rfl,rfl,hap,hai,hip.trans (min_le_left _ _),hip.trans (min_le_right _ _),rfl,?_⟩,rfl⟩
    intro (hi : i = p)
    rw [hm.logTerm,hi] at hit
    exact lt_of_le_of_ne hit hne
  left
  rw [hmb]
  rw [queued_send f { f with raftLog := l' } rfl,Raft.stampMessage_zero _ rfl (by simp [Raft.Stamped])]
  exact ⟨hm.type,rfl,by simp [Raft.failed,Raft.send,hpan]⟩

theorem decrHint_spec (h : Parted xs ys a p r f) (hr : Rejection xs ys a p f.id m) :
    a ≤ r.decrHint m ∧ r.decrHint m ≤ p ∧ (r.raftLog.base.index ≤ p → r.decrHint m < p) := by
  have hle := h.le
  have hai := hr.above
  have hip := hr.below
  unfold Raft.decrHint
  rw [hr.hintTerm,h.leader.repr.lastIndex]
  by_cases hpos : termAt ys m.rejectHint > 0
  · rw [if_pos hpos,if_neg (by omega)]
    have hta : termAt xs a ≤ termAt ys m.rejectHint := by
      rw [h.greatest.1.2.2]
      exact termAt_mono h.follower.mono hai hr.within
    obtain ⟨h1,h2,h3⟩ := scanHint_spec h.leader.repr hta hai
    refine ⟨h1,by omega,fun hb => ?_⟩
    rcases hip.eq_or_lt with heq | hlt
    · rw [heq] at h3 ⊢
      exact h3 hb (hr.strict heq)
    · omega
  -- Only index zero has no term.
  rw [if_neg hpos]
  have hi0 : m.rejectHint = 0 := by
    by_contra hne
    exact hpos (termAt_pos h.follower.pos (Nat.pos_of_ne_zero hne) hr.within)
  have := hr.beyond
  exact ⟨hai,hip,fun _ => by omega⟩

theorem sendAppend_next (h : Parted xs ys a p r f) : ∃ m, queued r (r.sendAppend f.id) = [m] ∧
    (r.raftLog.base.index ≤ p ∧ Probes xs p m ∨ p < r.raftLog.base.index ∧ m.type = .installSnapshot) := by
  obtain ⟨pr,hpr,hnext⟩ := h.next
  rcases Nat.lt_or_ge p r.raftLog.base.index with hlt | hge
  · rw [sendAppend_below h.leader.repr h.saved hpr (by omega) (by omega),queued_send r r rfl,
      r.stampMessage_zero rfl (by simp [Raft.Stamped])]
    exact ⟨_,rfl,.inr ⟨hlt,rfl⟩⟩
  rw [sendAppend_above h.leader.repr hpr (by omega),queued_send r r rfl,
    r.stampMessage_zero rfl (by simp [Raft.Stamped]),hnext,Nat.add_sub_cancel]
  exact ⟨_,rfl,.inl ⟨hge,rfl,rfl,rfl,List.take_prefix _ _⟩⟩

theorem moved (h : Parted xs ys a p r f) {r' f' : Raft} {q : Nat} (hr : r'.raftLog = r.raftLog)
    (hf : f'.raftLog = f.raftLog) (hn : ∃ pr, r'.prs.lookup f'.id = some pr ∧ pr.next = q + 1) (hq : q ≤ p) :
    Parted xs ys a q r' f' :=
  ⟨hr ▸ h.leader,hr ▸ h.saved,hf ▸ h.follower,h.logs,h.greatest,hf ▸ h.commit,hn,hq.trans h.le⟩

theorem handleAppendResp_eq (h : Parted xs ys a p r f) (hr : Rejection xs ys a p f.id m) :
    ∃ pr : Progress, r.handleAppendResp m =
      { r with prs := r.prs.insert f.id { pr with next := r.decrHint m + 1 } }.sendAppend f.id := by
  obtain ⟨pr,hpr,hnext⟩ := h.next
  refine ⟨pr,?_⟩
  rw [Raft.handleAppendResp,hr.sender,hpr]
  simp only
  rw [if_pos hr.reject,Progress.maybeDecrTo,if_neg (by rw [hr.logIndex]; omega)]
  simp

private theorem rejected (h : Parted xs ys a p r f) (hr : Rejection xs ys a p f.id m) {f' : Raft} (hid : f'.id = f.id)
    (hlog : f'.raftLog = f.raftLog) :
    Parted xs ys a (r.decrHint m) (r.handleAppendResp m) f' ∧ ∃ m', queued r (r.handleAppendResp m) = [m'] ∧
      (r.raftLog.base.index ≤ r.decrHint m ∧ Probes xs (r.decrHint m) m' ∨
        r.decrHint m < r.raftLog.base.index ∧ m'.type = .installSnapshot) := by
  obtain ⟨_,hle,_⟩ := h.decrHint_spec hr
  obtain ⟨pr,hcall⟩ := h.handleAppendResp_eq hr
  have hmid : Parted xs ys a (r.decrHint m)
      { r with prs := r.prs.insert f.id { pr with next := r.decrHint m + 1 } } f :=
    h.moved rfl rfl ⟨_,AList.lookup_insert _,rfl⟩ hle
  rw [hcall]
  refine ⟨?_,hmid.sendAppend_next⟩
  obtain ⟨pr',hpr',hnext'⟩ := hmid.next
  have hsame := Raft.sendAppend_same
    { r with prs := r.prs.insert f.id { pr with next := r.decrHint m + 1 } } f.id
  exact hmid.moved hsame.raftLog hlog ⟨pr',by rw [hsame.prs,hid]; exact hpr',hnext'⟩ le_rfl

theorem rounds_end {n : Nat} (h : Parted xs ys a p r f) (hm : Probes xs p m) (hn : p - a ≤ n) :
    ∃ k ≤ p - a, ∃ x, Exchange.rounds ⟨r,f,m⟩ k = some x ∧ (x.Accepted ∨ x.Ships) := by
  induction n generalizing r f m p with
  | zero =>
    rcases h.handleAppend_cases hm with hacc | ⟨_,_,hr,_⟩
    · exact ⟨0,Nat.zero_le _,_,rfl,.inl hacc⟩
    · have := hr.beyond
      omega
  | succ n ih =>
    rcases h.handleAppend_cases hm with hacc | ⟨resp,hreply,hr,hlog⟩
    · exact ⟨0,Nat.zero_le _,_,rfl,.inl hacc⟩
    have hbeyond := hr.beyond
    obtain ⟨_,hle,hlt⟩ := h.decrHint_spec hr
    obtain ⟨hnew,m',hqueue,hm'⟩ := h.rejected hr (f.handleAppend_keeps m).id hlog
    have hround : Exchange.round ⟨r,f,m⟩ = some ⟨r.handleAppendResp resp,f.handleAppend m,m'⟩ := by
      unfold Exchange.round
      rw [if_pos hm.type,hreply]
      simp only
      rw [if_pos hr.reject,hqueue]
      rfl
    rcases hm' with ⟨hb,hm'⟩ | ⟨_,hship⟩
    · have hqlt := hlt (hb.trans hle)
      obtain ⟨k,hk,x,hx,hend⟩ := ih hnew hm' (by omega)
      refine ⟨k + 1,by omega,x,?_,hend⟩
      rw [Exchange.rounds,hround]
      exact hx
    refine ⟨1,by omega,⟨r.handleAppendResp resp,f.handleAppend m,m'⟩,?_,.inr hship⟩
    rw [Exchange.rounds,hround]
    rfl

end Parted

/-- Backtracking progresses and does not overshoot: a rejected probe at `p` is followed by one below it and not
below the agreement, unless `p` was compacted meanwhile and the leader sends its snapshot; so probing ends. -/
theorem backtracking {m : Message} (h : Parted xs ys a p r f) (hm : Probes xs p m) :
    (∀ resp, Exchange.reply ⟨r,f,m⟩ = some resp → resp.reject = true →
      ∃ q, ((r.handleAppendResp resp).prs.lookup f.id).map (·.next) = some (q + 1) ∧ a ≤ q ∧ q ≤ p ∧
        (q < p ∨ p < r.raftLog.base.index ∧
          (queued r (r.handleAppendResp resp)).map (·.type) = [.installSnapshot])) ∧
    ∃ k ≤ p - a, ∃ x, Exchange.rounds ⟨r,f,m⟩ k = some x ∧ (x.Accepted ∨ x.Ships) := by
  refine ⟨fun resp hresp hrej => ?_,h.rounds_end hm le_rfl⟩
  rcases h.handleAppend_cases hm with hacc | ⟨_,hreply,hr,_⟩
  · have hany := hacc.2.1
    rw [hresp,Option.any_some,hrej] at hany
    cases hany
  obtain rfl := Option.some.inj (hresp.symm.trans hreply)
  obtain ⟨haq,hqp,hlt⟩ := h.decrHint_spec hr
  obtain ⟨hnew,m',hqueue,hm'⟩ := h.rejected hr rfl rfl
  obtain ⟨pr,hpr,hnext⟩ := hnew.next
  refine ⟨r.decrHint resp,by rw [hpr,Option.map_some,hnext],haq,hqp,?_⟩
  rcases Nat.lt_or_ge p r.raftLog.base.index with hb | hb
  · rcases hm' with ⟨hq,_⟩ | ⟨_,hship⟩
    · omega
    · exact .inr ⟨hb,by rw [hqueue,List.map_singleton,hship]⟩
  · exact .inl (hlt hb)

/-- Entries of these terms. -/
def entriesOf (terms : List Nat) : List Entry := terms.mapIdx fun i t => { term := t, index := i + 1 }

/-- A node at term five that has stored these entries and compacted the first `base` of them. -/
def holding (id base : Nat) (terms : List Nat) : Raft :=
  { cfg := { id := id, peers := [1,2,3], electionTicks := 10, heartbeatTicks := 1 }
    id := id
    term := 5
    peers := [1,2,3]
    heartbeatTimeout := 1
    rand := fun _ => 0
    raftLog := RaftLog.newLog
      { snapshot := { metadata := { index := base, term := termAt (entriesOf terms) base } }
        entries := (entriesOf terms).drop base } }

/-- The same as leader, about to send node 2 the entry after `p`. -/
def probing (base p : Nat) (terms : List Nat) : Raft :=
  { holding 1 base terms with state := .leader, lead := 1, prs := AList.insert 2 { next := p + 1 } ∅ }

private theorem holding_rising {terms : List Nat} {base : Nat} (hb : base ≤ terms.length)
    (hm : terms.Pairwise (· ≤ ·)) (hp : ∀ t ∈ terms, 0 < t) (id : Nat) :
    Rising (holding id base terms).raftLog (entriesOf terms) := by
  have hlen : (entriesOf terms).length = terms.length := List.length_mapIdx
  have hget : ∀ i e, (entriesOf terms)[i]? = some e → e.index = i + 1 ∧ terms[i]? = some e.term := by
    intro i e he
    rw [entriesOf,List.getElem?_mapIdx,Option.map_eq_some_iff] at he
    obtain ⟨t,ht,rfl⟩ := he
    exact ⟨rfl,ht⟩
  have hs : (holding id base terms).raftLog.storage.Repr (entriesOf terms) :=
    ⟨hb.trans_eq hlen.symm,rfl,rfl,fun i e he => (hget i e he).1⟩
  have hr : (holding id base terms).raftLog.Repr (entriesOf terms) := by
    apply RaftLog.Repr.of_storage hs
    rw [← hs.lastIndex]
    rfl
  refine ⟨hr,le_of_eq (Nat.add_sub_cancel base 1).symm,?_,fun e he => ?_⟩
  · rw [entriesOf,List.pairwise_iff_getElem]
    intro i j hi hj hij
    rw [List.getElem_mapIdx,List.getElem_mapIdx]
    exact List.pairwise_iff_getElem.mp hm i j (by simpa using hi) (by simpa using hj) hij
  · obtain ⟨i,hi⟩ := List.mem_iff_getElem?.mp he
    exact hp _ (List.mem_of_getElem? (hget i e hi).2)

/-- What the leader sends node 2. -/
def probe (base p : Nat) (terms : List Nat) : Message :=
  (queued (probing base p terms) ((probing base p terms).sendAppend 2)).headD { type := .append }

theorem holding_parted {lead follow : List Nat} {base a p : Nat} (hl : lead.Pairwise (· ≤ ·)) (hlp : ∀ t ∈ lead, 0 < t)
    (hf : follow.Pairwise (· ≤ ·)) (hfp : ∀ t ∈ follow, 0 < t) (hb : base ≤ lead.length) (hp : p ≤ lead.length)
    (hm : LogsMatch (entriesOf lead) (entriesOf follow)) (ha : Agree (entriesOf lead) (entriesOf follow) a)
    (hmax : ∀ i, i < lead.length + 1 → Agree (entriesOf lead) (entriesOf follow) i → i ≤ a) :
    Parted (entriesOf lead) (entriesOf follow) a p (probing base p lead) (holding 2 0 follow) where
  leader := holding_rising hb hl hlp 1
  saved := rfl
  follower := holding_rising (Nat.zero_le _) hf hfp 2
  logs := hm
  greatest := ⟨ha,fun i hi => hmax i (Nat.lt_succ_of_le (hi.1.trans_eq List.length_mapIdx)) hi⟩
  commit := Nat.zero_le _
  next := ⟨_,AList.lookup_insert _,rfl⟩
  le := hp.trans_eq List.length_mapIdx.symm

/-- The leader probes index 1 and compacts index 2 before the rejection arrives: its scan reads a term of zero
there and leaves the next entry where it was. -/
theorem compacted_probe_stays :
    Parted (entriesOf [2,2]) (entriesOf [1]) 0 1 (probing 2 1 [2,2]) (holding 2 0 [1]) ∧
    Probes (entriesOf [2,2]) 1 (probe 0 1 [2,2]) ∧
    ∃ resp, Exchange.reply ⟨probing 2 1 [2,2],holding 2 0 [1],probe 0 1 [2,2]⟩ = some resp ∧ resp.reject = true ∧
      (((probing 2 1 [2,2]).handleAppendResp resp).prs.lookup 2).map (·.next) = some (1 + 1) := by
  refine ⟨holding_parted (by decide) (by decide) (by decide) (by decide) (by decide) (by decide) (by decide)
    (by decide) (by decide),⟨by decide +kernel,by decide +kernel,by decide +kernel,by decide +kernel⟩,?_⟩
  exact ⟨_,rfl,by decide +kernel,by decide +kernel⟩

/-- An entry of term zero would be no hint at all. -/
example : (Exchange.reply ⟨probing 0 1 [1],holding 2 0 [0],probe 0 1 [1]⟩).any (fun resp => resp.reject ∧
    (((probing 0 1 [1]).handleAppendResp resp).prs.lookup 2).map (·.next) = some 2) = true := by decide +kernel

theorem backtracking_two_tails :
    ∃ k ≤ 5 - 2, ∃ x, Exchange.rounds
        ⟨probing 0 5 [1,1,4,4,4],holding 2 0 [1,1,2,2,3,3],probe 0 5 [1,1,4,4,4]⟩ k = some x ∧
      (x.Accepted ∨ x.Ships) :=
  (backtracking (holding_parted (by decide) (by decide) (by decide) (by decide) (by decide) (by decide) (by decide)
    (by decide) (by decide))
    ⟨by decide +kernel,by decide +kernel,by decide +kernel,by decide +kernel⟩).2

end Parallax.Cluster
