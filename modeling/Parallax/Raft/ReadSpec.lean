import Parallax.Raft.ReadOnly

/-! The queue of pending reads and the map behind it hold the same contexts. -/
namespace Parallax.ReadOnly

structure WF (ro : ReadOnly) : Prop where
  nodup : ro.readIndexQueue.Nodup
  mem : ∀ ctx, ctx ∈ ro.readIndexQueue ↔ (ro.pendingReadIndex.lookup ctx).isSome
  key : ∀ ctx rs, ro.pendingReadIndex.lookup ctx = some rs → rs.req.context = ctx

theorem WF.empty : WF {} := ⟨by simp,by simp,by simp⟩

variable {ro : ReadOnly}

theorem WF.addRequest (h : ro.WF) (idx : Nat) (m : Message) : (ro.addRequest idx m).WF := by
  unfold ReadOnly.addRequest
  split
  · exact h
  rename_i hnone
  have hnew : m.context ∉ ro.readIndexQueue := by
    rw [h.mem,hnone]
    simp
  refine ⟨?_,?_,?_⟩
  · simpa [List.nodup_append,h.nodup] using fun a ha => (ne_of_mem_of_not_mem ha hnew)
  · intro ctx
    by_cases hc : ctx = m.context
    · subst hc
      simp
    · simp [hc,AList.lookup_insert_ne hc,h.mem]
  intro ctx rs hrs
  by_cases hc : ctx = m.context
  · subst hc
    obtain rfl : _ = rs := by simpa using hrs
    rfl
  · exact h.key ctx rs (by simpa [AList.lookup_insert_ne hc] using hrs)

theorem WF.recvAck (h : ro.WF) (id : Nat) (context : Bytes) : (ro.recvAck id context).1.WF := by
  unfold ReadOnly.recvAck
  split
  · exact h
  rename_i rs hrs
  refine ⟨h.nodup,?_,?_⟩
  · intro ctx
    by_cases hc : ctx = context
    · subst hc
      simp [h.mem,hrs]
    · simp [AList.lookup_insert_ne hc,h.mem]
  intro ctx rs' hrs'
  by_cases hc : ctx = context
  · subst hc
    obtain rfl : _ = rs' := by simpa using hrs'
    exact h.key ctx rs hrs
  · exact h.key ctx rs' (by simpa [AList.lookup_insert_ne hc] using hrs')

theorem scan_eq_some {target : Bytes} {q queue : List Bytes} {rss : List ReadIndexStatus}
    (hq : ∀ ctx ∈ q, (ro.pendingReadIndex.lookup ctx).isSome) (h : ro.scan target q = some (rss,queue)) :
    ∃ front, q = front ++ target :: queue ∧
      (front ++ [target]).map ro.pendingReadIndex.lookup = rss.map some := by
  induction q generalizing rss queue with
  | nil => simp [scan] at h
  | cons ctx q ih =>
    obtain ⟨rs,hrs⟩ := Option.isSome_iff_exists.mp (hq ctx (by simp))
    unfold scan at h
    simp only [hrs] at h
    split at h
    · rename_i hc
      subst hc
      simp only [Option.some.injEq,Prod.mk.injEq] at h
      obtain ⟨rfl,rfl⟩ := h
      exact ⟨[],rfl,by simp [hrs]⟩
    obtain ⟨⟨rss',queue'⟩,hs,he⟩ := Option.map_eq_some_iff.mp h
    simp only [Prod.mk.injEq] at he
    obtain ⟨rfl,rfl⟩ := he
    obtain ⟨front,rfl,hmap⟩ := ih (fun c hc => hq c (by simp [hc])) hs
    refine ⟨ctx :: front,rfl,?_⟩
    rw [List.cons_append,List.map_cons,hmap,hrs]
    rfl

private theorem lookup_foldl_erase (p : AList (fun _ : Bytes => ReadIndexStatus)) (cs : List Bytes)
    (ctx : Bytes) : (cs.foldl (fun p c => p.erase c) p).lookup ctx =
      if ctx ∈ cs then none else p.lookup ctx := by
  induction cs generalizing p with
  | nil => simp
  | cons c cs ih =>
    rw [List.foldl_cons,ih]
    by_cases hc : ctx = c
    · subst hc
      simp
    · simp [hc,AList.lookup_erase_ne hc]

theorem WF.advance_cases (h : ro.WF) (context : Bytes) :
    (ro.advance context = (ro,[])) ∨
    ∃ front rss, ro.readIndexQueue = front ++ context :: (ro.advance context).1.readIndexQueue ∧
      (ro.advance context).2 = rss ∧ (front ++ [context]).map ro.pendingReadIndex.lookup = rss.map some ∧
      ∀ ctx, (ro.advance context).1.pendingReadIndex.lookup ctx =
        if ctx ∈ front ++ [context] then none else ro.pendingReadIndex.lookup ctx := by
  unfold ReadOnly.advance
  split
  · exact .inl rfl
  rename_i rss queue hs
  obtain ⟨front,hq,hmap⟩ := scan_eq_some (fun ctx hc => (h.mem ctx).mp hc) hs
  refine .inr ⟨front,rss,hq,rfl,hmap,fun ctx => ?_⟩
  have hkeys : rss.map (fun rs => rs.req.context) = front ++ [context] := by
    apply List.map_injective_iff.mpr (Option.some_injective _)
    rw [List.map_map]
    calc rss.map (some ∘ fun rs => rs.req.context)
        = (rss.map some).map (Option.map fun rs => rs.req.context) := by rw [List.map_map]; rfl
      _ = (front ++ [context]).map some := by
        rw [← hmap,List.map_map]
        apply List.map_congr_left
        intro c hc
        have hcq : c ∈ ro.readIndexQueue := by
          rw [hq]
          rcases List.mem_append.mp hc with hc | hc
          · exact List.mem_append_left _ hc
          · simp [List.mem_singleton.mp hc]
        obtain ⟨rs,hrs⟩ := Option.isSome_iff_exists.mp ((h.mem c).mp hcq)
        simp [hrs,h.key c rs hrs]
  rw [← lookup_foldl_erase,← hkeys,List.foldl_map]

theorem WF.advance (h : ro.WF) (context : Bytes) : (ro.advance context).1.WF := by
  rcases h.advance_cases context with he | ⟨front,rss,hq,-,-,hl⟩
  · rw [he]
    exact h
  have hnd := h.nodup
  rw [hq,List.append_cons] at hnd
  obtain ⟨_,hnd2,hdis⟩ := List.nodup_append.mp hnd
  refine ⟨hnd2,?_,?_⟩
  · intro ctx
    rw [hl]
    split_ifs with hc
    · simp only [Option.isSome_none,Bool.false_eq_true,iff_false]
      exact fun hin => hdis ctx hc ctx hin rfl
    rw [← h.mem,hq,List.append_cons]
    simp only [List.mem_append] at hc ⊢
    tauto
  intro ctx rs hrs
  rw [hl] at hrs
  split_ifs at hrs with hc
  exact h.key ctx rs hrs

theorem WF.lastPendingRequestCtx (h : ro.WF) : ∃ ctx, ro.lastPendingRequestCtx = some ctx := by
  unfold ReadOnly.lastPendingRequestCtx
  split
  · exact ⟨[],rfl⟩
  rename_i ctx hctx
  obtain ⟨rs,hrs⟩ := Option.isSome_iff_exists.mp ((h.mem ctx).mp (List.mem_of_getLast? hctx))
  exact ⟨_,by rw [hrs]; rfl⟩

end Parallax.ReadOnly
