import Parallax.Raft.Asking

/-! Reads that a leader owes. A read it was asked for waits for the gate or for its confirmation until it is released; a
leader forgets none. -/
namespace Parallax

/-- The read with context `c` was asked for and is still there; `ws` wait for the gate. -/
def Raft.Owing (r : Raft) (ws : List Message) (c : Bytes) : Prop :=
  c ∈ r.readOnly.readIndexQueue ∨ (∃ m ∈ ws, m.context = c) ∨ ∃ rs ∈ r.readStates, rs.requestCtx = c

def Raft.Owes (r : Raft) (c : Bytes) : Prop := r.Owing r.pendingReadIndexMessages c

instance (r : Raft) (c : Bytes) : Decidable (r.Owes c) := inferInstanceAs (Decidable (_ ∨ _ ∨ _))

theorem ReadOnly.addRequest_holds {ro : ReadOnly} {idx : Nat} {m : Message} {c : Bytes} (hw : ro.WF)
    (h : c ∈ ro.readIndexQueue ∨ m.context = c) : c ∈ (ro.addRequest idx m).readIndexQueue := by
  unfold ReadOnly.addRequest
  split
  · rename_i rs hrs
    rcases h with h | rfl
    · exact h
    · exact (hw.mem _).mpr (by rw [hrs]; rfl)
  rcases h with h | rfl
  · exact List.mem_append_left _ h
  · exact List.mem_append_right _ (List.mem_singleton.mpr rfl)

theorem ReadOnly.WF.advance_mem {ro : ReadOnly} (hw : ro.WF) (ctx : Bytes) {c : Bytes} (h : c ∈ ro.readIndexQueue) :
    c ∈ (ro.advance ctx).1.readIndexQueue ∨ ∃ rs ∈ (ro.advance ctx).2, rs.req.context = c := by
  rcases hw.advance_cases ctx with he | ⟨front,rss,hqueue,hrss,hmap,_⟩
  · rw [he]
    exact .inl h
  rw [hqueue,List.append_cons,List.mem_append] at h
  rcases h with h | h
  · have hsome : ro.pendingReadIndex.lookup c ∈ rss.map some := by
      rw [← hmap]
      exact List.mem_map_of_mem h
    obtain ⟨rs,hrs,heq⟩ := List.mem_map.mp hsome
    exact .inr ⟨rs,hrss ▸ hrs,hw.key c rs heq.symm⟩
  · exact .inl h

namespace Raft
variable {r r' : Raft} {c : Bytes} {ws : List Message}

theorem Owing.keepsReads (h : r.Owing ws c) (hk : KeepsReads r r') : r'.Owing ws c := by
  unfold Owing
  rw [hk.readOnly,hk.readStates]
  exact h

theorem Owes.rests (h : r.Owes c) (hr : Rests r r') : r'.Owes c := by
  unfold Owes
  rw [hr.pending]
  exact Owing.keepsReads h hr.toKeepsReads

theorem Owing.sendReadIndex {m : Message} (h : r.Owing (m :: ws) c) (hw : r.readOnly.WF) :
    (r.sendReadIndex m).Owing ws c ∧ (r.sendReadIndex m).readOnly.WF := by
  unfold Raft.sendReadIndex
  split
  · refine ⟨?_,hw⟩
    rcases h with h | ⟨m',hm',hc⟩ | ⟨rs,hrs,hc⟩
    · exact .inl h
    · rcases List.mem_cons.mp hm' with rfl | hm'
      · exact .inr (.inr ⟨_,List.mem_append_right _ (List.mem_singleton.mpr rfl),hc⟩)
      · exact .inr (.inl ⟨m',hm',hc⟩)
    · exact .inr (.inr ⟨rs,List.mem_append_left _ hrs,hc⟩)
  set ro := r.readOnly.addRequest r.raftLog.committed m with hro
  have hk := bcastHeartbeatWithCtx_keepsReads { r with readOnly := (ro.recvAck r.id m.context).1 } m.context
  rw [hk.readOnly]
  refine ⟨Owing.keepsReads ?_ hk,(hw.addRequest _ m).recvAck _ _⟩
  have hadd : c ∈ r.readOnly.readIndexQueue ∨ m.context = c → c ∈ (ro.recvAck r.id m.context).1.readIndexQueue := by
    intro hin
    rw [ReadOnly.recvAck_queue]
    exact ReadOnly.addRequest_holds hw hin
  rcases h with h | ⟨m',hm',hc⟩ | h
  · exact .inl (hadd (.inl h))
  · rcases List.mem_cons.mp hm' with rfl | hm'
    · exact .inl (hadd (.inr hc))
    · exact .inr (.inl ⟨m',hm',hc⟩)
  · exact .inr (.inr h)

theorem Owing.foldl_sendReadIndex (ms : List Message) : ∀ {r : Raft}, r.Owing ms c → r.readOnly.WF →
    (ms.foldl Raft.sendReadIndex r).Owing [] c := by
  induction ms with
  | nil => exact fun h _ => h
  | cons m ms ih =>
    intro r h hw
    obtain ⟨h',hw'⟩ := h.sendReadIndex hw
    exact ih h' hw'

theorem Owes.release (h : r.Owes c) (hw : r.readOnly.WF) : r.releasePendingReadIndexMessages.Owes c := by
  unfold releasePendingReadIndexMessages
  split
  · exact h
  unfold Owes
  rw [foldl_sendReadIndex_pending]
  exact Owing.foldl_sendReadIndex (r := { r with pendingReadIndexMessages := [] }) _ h hw

theorem Owes.maybeCommit (h : r.Owes c) (hw : r.readOnly.WF) : r.maybeCommit.1.Owes c := by
  unfold Raft.maybeCommit
  split
  · exact h
  dsimp only
  split
  · exact h
  split
  · exact h
  · exact Owes.release (r := { r with raftLog := _ }) h hw

theorem Owes.appendEntry (h : r.Owes c) (hw : r.readOnly.WF) (es : List Entry) : (r.appendEntry es).Owes c := by
  unfold Raft.appendEntry
  dsimp only
  split
  · exact h
  · exact Owes.maybeCommit (r := { r with raftLog := _, prs := _ }) h hw

theorem Owes.confirmReads (h : r.Owes c) (hw : r.readOnly.WF) (m : Message) : (r.confirmReads m).Owes c := by
  unfold Raft.confirmReads
  split
  · exact h
  dsimp only
  have hq := ReadOnly.recvAck_queue r.readOnly m.sender m.context
  split
  · rcases h with h | h
    · exact .inl (hq ▸ h)
    · exact .inr h
  rcases h with h | h | ⟨rs,hrs,hc⟩
  · rcases (hw.recvAck m.sender m.context).advance_mem m.context (hq ▸ h) with h | ⟨rs,hrs,hc⟩
    · exact .inl h
    · exact .inr (.inr ⟨_,List.mem_append_right _ (List.mem_map_of_mem hrs),hc⟩)
  · exact .inr (.inl h)
  · exact .inr (.inr ⟨rs,List.mem_append_left _ hrs,hc⟩)

theorem Owes.stepReadIndex (h : r.Owes c) (hw : r.readOnly.WF) (m : Message) : (r.stepReadIndex m).1.Owes c := by
  unfold Raft.stepReadIndex
  split
  · exact h
  split
  · unfold Owes
    rw [sendReadIndex_pending]
    have howing : r.Owing (m :: r.pendingReadIndexMessages) c :=
      h.imp_right (Or.imp_left fun ⟨m',hm',hc⟩ => ⟨m',List.mem_cons_of_mem _ hm',hc⟩)
    exact (howing.sendReadIndex hw).1
  · exact h.imp_right (Or.imp_left fun ⟨m',hm',hc⟩ => ⟨m',List.mem_append_left _ hm',hc⟩)

/-- A leader that is asked for a read owes it. -/
theorem owes_stepReadIndex (hl : r.state = .leader) (hw : r.readOnly.WF) (m : Message) :
    (r.stepReadIndex m).1.Owes m.context := by
  unfold Raft.stepReadIndex
  rw [if_neg (by simp [hl])]
  split
  · unfold Owes
    rw [sendReadIndex_pending]
    exact (Owing.sendReadIndex (.inr (.inl ⟨m,List.mem_cons_self,rfl⟩)) hw).1
  · exact .inr (.inl ⟨m,List.mem_append_right _ (List.mem_singleton.mpr rfl),rfl⟩)

section input
variable (h : r.Owes c) (hl : r.state = .leader)
include h hl

/-- A leader that takes a message and still leads. -/
theorem Owes.step (hw : r.readOnly.WF) {m : Message} (hpos : m.type = .propose ∨ m.type = .readIndex ∨ 0 < m.term)
    (hl' : (r.step m).1.state = .leader) : (r.step m).1.Owes c := by
  cases (r.step_stepped m).tends hpos hl hl' with
  | rests hr => exact h.rests hr
  | commits r₁ _ hr hr' => exact ((h.rests hr).maybeCommit (hr.readOnly ▸ hw)).rests hr'
  | appends es hr => exact (h.appendEntry hw es).rests hr
  | asks _ heq => exact heq ▸ h.stepReadIndex hw m
  | confirms r₁ _ _ hr heq => exact heq ▸ (h.rests hr).confirmReads (hr.readOnly ▸ hw) m

theorem Owes.tick : r.tick.Owes c := h.rests (tick_rests hl)

end input

theorem Asking.again {G : Gauge} (h : Asking G r) {m : Message} (hg : r.committedEntryInCurrentTerm = true)
    (hq : m.context ∈ r.readOnly.readIndexQueue) (hf : ¬ G.fresh m.context) : Asking G (r.stepReadIndex m).1 := by
  unfold Raft.stepReadIndex
  split
  · exact h
  obtain ⟨rs,hrs⟩ := Option.isSome_iff_exists.mp ((h.wf.mem _).mp hq)
  have hask := (h.status _ rs hrs).1
  unfold Raft.sendReadIndex
  split
  · refine ⟨⟨h.wf,h.status,h.waiting,h.order,fun rs' hrs' => ?_⟩,h.gate⟩
    rcases List.mem_append.mp hrs' with hrs' | hrs'
    · exact h.released rs' hrs'
    · obtain rfl := List.mem_singleton.mp hrs'
      exact ⟨hask,fun hfresh => absurd hfresh hf⟩
  have hadd : r.readOnly.addRequest r.raftLog.committed m = r.readOnly := by
    unfold ReadOnly.addRequest
    rw [hrs]
  rw [hadd]
  set r₁ : Raft := { r with readOnly := (r.readOnly.recvAck r.id m.context).1 } with hr₁
  have hs : Asking G r₁ := by
    refine ⟨⟨h.wf.recvAck _ _,h.status.recvAck fun hfresh => absurd hfresh hf,h.waiting,?_,h.released⟩,h.gate⟩
    rw [hr₁]
    simp only [ReadOnly.recvAck_queue]
    exact h.order
  exact hs.rests ((bcastHeartbeatWithCtx_same r₁ _).rests (bcastHeartbeatWithCtx_keepsReads r₁ _))

end Raft
end Parallax
