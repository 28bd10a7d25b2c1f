import Parallax.Raft.ReadSpec

/-! Runs of the read queue: what it holds, confirms and releases after any sequence of calls. -/
namespace Parallax

inductive ReadOp
  | addRequest (idx : Nat) (m : Message)
  | recvAck (id : Nat) (context : Bytes)
  | advance (context : Bytes)
  deriving DecidableEq, Repr

/-- The commit index a request is recorded at. -/
def ReadOp.index? : ReadOp → Option Nat
  | .addRequest idx _ => some idx
  | _ => none

namespace ReadOnly

def step (ro : ReadOnly) : ReadOp → ReadOnly
  | .addRequest idx m => ro.addRequest idx m
  | .recvAck id context => (ro.recvAck id context).1
  | .advance context => (ro.advance context).1

/-- The queue after `ops`, from `newReadOnly`. -/
def run (ops : List ReadOp) : ReadOnly := ops.foldl step {}

/-- The request a call adds to the queue. -/
def accepts (ro : ReadOnly) : ReadOp → List (Nat × Message)
  | .addRequest idx m => if (ro.pendingReadIndex.lookup m.context).isSome then [] else [(idx,m)]
  | _ => []

/-- The requests a call releases. -/
def releases (ro : ReadOnly) : ReadOp → List (Nat × Message)
  | .advance context => (ro.advance context).2.map fun rs => (rs.index,rs.req)
  | _ => []

/-- What `f` yields at the calls of `ops`, in order. -/
def along (f : ReadOnly → ReadOp → List (Nat × Message)) : ReadOnly → List ReadOp → List (Nat × Message)
  | _, [] => []
  | ro, op :: ops => f ro op ++ along f (ro.step op) ops

/-- The queued requests with their indices. -/
def pending (ro : ReadOnly) : List (Nat × Message) :=
  ro.readIndexQueue.filterMap fun ctx => (ro.pendingReadIndex.lookup ctx).map fun rs => (rs.index,rs.req)

/-- `rs` is the state of the request that the call behind `earlier` added: it has been pending
ever since, and `rs.acks` are the IDs that acknowledged it in `later`. -/
structure Since (ctx : Bytes) (rs : ReadIndexStatus) (earlier later : List ReadOp) : Prop where
  fresh : (run earlier).pendingReadIndex.lookup ctx = none
  context : rs.req.context = ctx
  kept : ∀ p, p <+: later →
    ((run (earlier ++ .addRequest rs.index rs.req :: p)).pendingReadIndex.lookup ctx).isSome
  acks : ∀ id, id ∈ rs.acks ↔ .recvAck id ctx ∈ later

/-- A pending request goes back to the call that added it. -/
def Stems (ops : List ReadOp) (ctx : Bytes) (rs : ReadIndexStatus) : Prop :=
  ∃ earlier later, ops = earlier ++ .addRequest rs.index rs.req :: later ∧ Since ctx rs earlier later

variable {ro : ReadOnly}

private theorem run_concat (ops : List ReadOp) (op : ReadOp) : run (ops ++ [op]) = (run ops).step op := by
  simp [run]

theorem WF.step (h : ro.WF) (op : ReadOp) : (ro.step op).WF := by
  cases op with
  | addRequest idx m => exact h.addRequest idx m
  | recvAck id context => exact h.recvAck id context
  | advance context => exact h.advance context

private theorem run_wf (ops : List ReadOp) : (run ops).WF := by
  induction ops using List.reverseRecOn with
  | nil => exact WF.empty
  | append_singleton ops op ih =>
    rw [run_concat]
    exact ih.step op

private theorem lookup_addRequest (idx : Nat) (m : Message) (ctx : Bytes) :
    (ro.addRequest idx m).pendingReadIndex.lookup ctx =
      if ctx = m.context ∧ ro.pendingReadIndex.lookup ctx = none then
        some { index := idx, req := m, acks := ∅ }
      else ro.pendingReadIndex.lookup ctx := by
  unfold ReadOnly.addRequest
  split
  · rename_i rs hrs
    rw [if_neg]
    rintro ⟨rfl,hn⟩
    rw [hrs] at hn
    cases hn
  rename_i hn
  by_cases hc : ctx = m.context
  · subst hc
    rw [if_pos ⟨rfl,hn⟩]
    exact AList.lookup_insert _
  · rw [if_neg fun h => hc h.1]
    exact AList.lookup_insert_ne hc

private theorem lookup_recvAck (id : Nat) (context ctx : Bytes) :
    (ro.recvAck id context).1.pendingReadIndex.lookup ctx =
      (ro.pendingReadIndex.lookup ctx).map fun rs =>
        if ctx = context then { rs with acks := insert id rs.acks } else rs := by
  unfold ReadOnly.recvAck
  split
  · rename_i hn
    by_cases hc : ctx = context
    · subst hc
      simp [hn]
    · simp [hc]
  rename_i rs hrs
  by_cases hc : ctx = context
  · subst hc
    simp [hrs]
  · simp [hc,AList.lookup_insert_ne hc]

theorem WF.lookup_advance (h : ro.WF) {context ctx : Bytes} {rs : ReadIndexStatus}
    (hrs : (ro.advance context).1.pendingReadIndex.lookup ctx = some rs) :
    ro.pendingReadIndex.lookup ctx = some rs := by
  rcases h.advance_cases context with he | ⟨front,rss,-,-,-,hl⟩
  · rwa [he] at hrs
  rw [hl] at hrs
  split_ifs at hrs
  exact hrs

theorem Stems.concat {ops : List ReadOp} {op : ReadOp} {ctx : Bytes} {rs rs' : ReadIndexStatus}
    (h : Stems ops ctx rs) (hpend : (run (ops ++ [op])).pendingReadIndex.lookup ctx = some rs')
    (hidx : rs'.index = rs.index) (hreq : rs'.req = rs.req)
    (hacks : ∀ id, id ∈ rs'.acks ↔ id ∈ rs.acks ∨ op = .recvAck id ctx) : Stems (ops ++ [op]) ctx rs' := by
  obtain ⟨earlier,later,rfl,hs⟩ := h
  refine ⟨earlier,later ++ [op],by simp [hidx,hreq],hs.fresh,by rw [hreq]; exact hs.context,fun p hp => ?_,fun id => ?_⟩
  · rw [hidx,hreq]
    rcases List.prefix_concat_iff.mp hp with rfl | hp
    · have : earlier ++ .addRequest rs.index rs.req :: (later ++ [op]) =
          earlier ++ .addRequest rs.index rs.req :: later ++ [op] := by simp
      rw [this,hpend]
      rfl
    · exact hs.kept p hp
  · rw [hacks,hs.acks,List.mem_append,List.mem_singleton]
    exact or_congr_right eq_comm

private theorem run_stems (ops : List ReadOp) : ∀ {ctx : Bytes} {rs : ReadIndexStatus},
    (run ops).pendingReadIndex.lookup ctx = some rs → Stems ops ctx rs := by
  induction ops using List.reverseRecOn with
  | nil =>
    intro ctx rs h
    cases h
  | append_singleton ops op ih =>
    intro ctx rs' h
    have hrun := run_concat ops op
    cases op with
    | addRequest idx m =>
      have hl := h
      rw [hrun] at hl
      rw [ReadOnly.step,lookup_addRequest] at hl
      split_ifs at hl with hnew
      · obtain rfl := Option.some.inj hl
        refine ⟨ops,[],rfl,hnew.2,hnew.1.symm,fun p hp => ?_,by simp⟩
        rw [List.prefix_nil.mp hp,h]
        rfl
      · exact (ih hl).concat h rfl rfl (by simp)
    | recvAck id c =>
      have hl := h
      rw [hrun] at hl
      rw [ReadOnly.step,lookup_recvAck] at hl
      obtain ⟨rs,hrs,rfl⟩ := Option.map_eq_some_iff.mp hl
      refine (ih hrs).concat h (by split <;> rfl) (by split <;> rfl) fun id' => ?_
      by_cases hc : ctx = c
      · subst hc
        simp [or_comm,eq_comm]
      · simp [hc,Ne.symm hc]
    | advance c =>
      have hl := h
      rw [hrun] at hl
      exact (ih ((run_wf ops).lookup_advance hl)).concat h rfl rfl (by simp)

private theorem along_concat (f : ReadOnly → ReadOp → List (Nat × Message)) (ops : List ReadOp) (op : ReadOp) :
    ∀ ro : ReadOnly, along f ro (ops ++ [op]) = along f ro ops ++ f (ops.foldl step ro) op := by
  induction ops with
  | nil => exact fun ro => by simp [along]
  | cons op' ops ih => exact fun ro => by simp [along,ih]

private theorem filterMap_of_map_some {α β γ : Type} {f : α → Option β} {as : List α} {bs : List β} (g : β → γ)
    (h : as.map f = bs.map some) : (as.filterMap fun a => (f a).map g) = bs.map g := by
  induction as generalizing bs with
  | nil =>
    obtain rfl : bs = [] := by simpa using h.symm
    rfl
  | cons a as ih =>
    cases bs with
    | nil => simp at h
    | cons b bs =>
      simp only [List.map_cons,List.cons.injEq] at h
      rw [List.filterMap_cons_some (by rw [h.1]; rfl),ih h.2,List.map_cons]

theorem WF.pending_step (h : ro.WF) (op : ReadOp) :
    ro.pending ++ ro.accepts op = ro.releases op ++ (ro.step op).pending := by
  cases op with
  | addRequest idx m =>
    cases hl : ro.pendingReadIndex.lookup m.context with
    | some rs =>
      simp only [accepts,releases,ReadOnly.step,ReadOnly.addRequest,hl,Option.isSome_some,if_true,List.append_nil,
        List.nil_append]
    | none =>
      have hnew : m.context ∉ ro.readIndexQueue := by
        rw [h.mem,hl]
        simp
      have hold : (ro.readIndexQueue.filterMap fun ctx => ((ro.pendingReadIndex.insert m.context
          { index := idx, req := m, acks := ∅ }).lookup ctx).map fun rs => (rs.index,rs.req)) = ro.pending := by
        apply List.filterMap_congr
        intro ctx hctx
        rw [AList.lookup_insert_ne (ne_of_mem_of_not_mem hctx hnew)]
      simp only [accepts,releases,ReadOnly.step,ReadOnly.addRequest,hl,Option.isSome_none,Bool.false_eq_true,if_false,
        List.nil_append]
      conv_rhs => unfold pending
      rw [List.filterMap_append,hold]
      simp
  | recvAck id context =>
    have hq : (ro.recvAck id context).1.readIndexQueue = ro.readIndexQueue := by
      unfold ReadOnly.recvAck
      split <;> rfl
    simp only [accepts,releases,ReadOnly.step,List.append_nil,List.nil_append,pending]
    rw [hq]
    apply List.filterMap_congr
    intro ctx _
    rw [lookup_recvAck,Option.map_map]
    congr 1
    funext rs
    simp only [Function.comp_apply]
    split <;> rfl
  | advance context =>
    simp only [accepts,releases,ReadOnly.step,List.append_nil]
    rcases h.advance_cases context with he | ⟨front,rss,hq,hrss,hmap,hl⟩
    · rw [he]
      rfl
    have hnd := h.nodup
    rw [hq,List.append_cons] at hnd
    have hrest : (ro.advance context).1.pending = (ro.advance context).1.readIndexQueue.filterMap fun ctx =>
        (ro.pendingReadIndex.lookup ctx).map fun rs => (rs.index,rs.req) := by
      apply List.filterMap_congr
      intro ctx hctx
      rw [hl,if_neg fun hin => (List.nodup_append.mp hnd).2.2 ctx hin ctx hctx rfl]
    rw [hrest,hrss,← filterMap_of_map_some (fun rs : ReadIndexStatus => (rs.index,rs.req)) hmap,
      ← List.filterMap_append,← List.append_cons,← hq]
    rfl

theorem run_arrivals (ops : List ReadOp) :
    along releases {} ops ++ (run ops).pending = along accepts {} ops := by
  induction ops using List.reverseRecOn with
  | nil => rfl
  | append_singleton ops op ih =>
    have hstep := (run_wf ops).pending_step op
    rw [along_concat,along_concat,← ih,run_concat,List.append_assoc,List.append_assoc]
    exact congrArg _ hstep.symm

theorem along_accepts_sublist (ops : List ReadOp) :
    ∀ ro : ReadOnly, ((along accepts ro ops).map Prod.fst).Sublist (ops.filterMap ReadOp.index?) := by
  induction ops with
  | nil => exact fun _ => List.Sublist.refl _
  | cons op ops ih =>
    intro ro
    unfold along
    rw [List.map_append]
    cases op with
    | addRequest idx m =>
      change List.Sublist _ (idx :: ops.filterMap ReadOp.index?)
      have hadd : (ro.accepts (.addRequest idx m)).map Prod.fst = [] ∨
          (ro.accepts (.addRequest idx m)).map Prod.fst = [idx] := by
        simp only [accepts]
        split
        · exact .inl rfl
        · exact .inr rfl
      rcases hadd with he | he
      · rw [he]
        exact (ih _).cons idx
      · rw [he]
        exact (ih _).cons_cons idx
    | recvAck id c => exact ih _
    | advance c => exact ih _

private theorem scan_isSome {target : Bytes} {q : List Bytes} (hq : ∀ ctx ∈ q, (ro.pendingReadIndex.lookup ctx).isSome)
    (ht : target ∈ q) : (ro.scan target q).isSome := by
  induction q with
  | nil => simp at ht
  | cons ctx q ih =>
    obtain ⟨rs,hrs⟩ := Option.isSome_iff_exists.mp (hq ctx (by simp))
    unfold scan
    simp only [hrs]
    split
    · rfl
    rename_i hne
    rw [Option.isSome_map]
    apply ih fun c hc => hq c (by simp [hc])
    exact (List.mem_cons.mp ht).resolve_left (Ne.symm hne)

private theorem scan_eq_none {target : Bytes} {q : List Bytes} (ht : target ∉ q) : ro.scan target q = none := by
  induction q with
  | nil => rfl
  | cons ctx q ih =>
    rw [List.mem_cons,not_or] at ht
    unfold scan
    rw [ih ht.2]
    split
    · rfl
    · rw [if_neg (Ne.symm ht.1)]
      rfl

theorem WF.advance_of_mem (h : ro.WF) {ctx : Bytes} (hctx : ctx ∈ ro.readIndexQueue) :
    ∃ front, ro.readIndexQueue = front ++ ctx :: (ro.advance ctx).1.readIndexQueue ∧
      (front ++ [ctx]).map ro.pendingReadIndex.lookup = (ro.advance ctx).2.map some ∧
      ∀ c, (ro.advance ctx).1.pendingReadIndex.lookup c =
        if c ∈ front ++ [ctx] then none else ro.pendingReadIndex.lookup c := by
  rcases h.advance_cases ctx with he | ⟨front,rss,hq,rfl,hmap,hl⟩
  · obtain ⟨⟨rss,queue⟩,hs⟩ := Option.isSome_iff_exists.mp (scan_isSome (fun c hc => (h.mem c).mp hc) hctx)
    obtain ⟨front,_,hmap⟩ := scan_eq_some (fun c hc => (h.mem c).mp hc) hs
    have hnil : rss = [] := by
      unfold ReadOnly.advance at he
      rw [hs] at he
      exact congrArg Prod.snd he
    subst hnil
    simp at hmap
  · exact ⟨front,hq,hmap,hl⟩

private theorem advance_of_not_mem {ctx : Bytes} (hctx : ctx ∉ ro.readIndexQueue) : ro.advance ctx = (ro,[]) := by
  unfold ReadOnly.advance
  rw [scan_eq_none hctx]

/-- What holds of the queue after the calls `ops`. -/
structure Consistent (ops : List ReadOp) (ro : ReadOnly) : Prop where
  nodup : ro.readIndexQueue.Nodup
  keys : ∀ ctx, ctx ∈ ro.readIndexQueue ↔ ctx ∈ ro.pendingReadIndex.keys
  request : ∀ ctx rs, ro.pendingReadIndex.lookup ctx = some rs → rs.req.context = ctx
  stems : ∀ ctx rs, ro.pendingReadIndex.lookup ctx = some rs → Stems ops ctx rs
  counts : ∀ ctx rs id, ro.pendingReadIndex.lookup ctx = some rs → (ro.recvAck id ctx).2 = (insert id rs.acks).card
  arrivals : along releases {} ops ++ ro.pending = along accepts {} ops
  releases : ∀ ctx ∈ ro.readIndexQueue, ∃ front,
    ro.readIndexQueue = front ++ ctx :: (ro.advance ctx).1.readIndexQueue ∧
    (front ++ [ctx]).map ro.pendingReadIndex.lookup = (ro.advance ctx).2.map some ∧
    ∀ c, (ro.advance ctx).1.pendingReadIndex.lookup c =
      if c ∈ front ++ [ctx] then none else ro.pendingReadIndex.lookup c
  ordered : (ops.filterMap ReadOp.index?).Pairwise (· ≤ ·) → ∀ ctx, ((ro.advance ctx).2.map (·.index)).Pairwise (· ≤ ·)
  unknown : ∀ ctx, ctx ∉ ro.readIndexQueue → ro.advance ctx = (ro,[])
  last : ro.lastPendingRequestCtx ≠ none

/-- Whatever contexts are asked, acknowledged and confirmed, queue and map stay in step and
requests are released in the order of their arrival. -/
theorem run_consistent (ops : List ReadOp) : Consistent ops (run ops) := by
  have h := run_wf ops
  refine ⟨h.nodup,fun ctx => ?_,h.key,fun ctx rs => run_stems ops,fun ctx rs id hrs => ?_,run_arrivals ops,
    fun ctx hctx => h.advance_of_mem hctx,fun hmono ctx => ?_,fun ctx => advance_of_not_mem,?_⟩
  · rw [h.mem,AList.lookup_isSome]
    exact AList.mem_keys.symm
  · unfold ReadOnly.recvAck
    rw [hrs]
  · -- What is released now is a part of all that was accepted.
    have hacc := hmono.sublist (along_accepts_sublist ops {})
    have hstep := h.pending_step (.advance ctx)
    rw [← run_arrivals,List.map_append] at hacc
    have hpend := (List.pairwise_append.mp hacc).2.1
    unfold accepts ReadOnly.releases at hstep
    rw [List.append_nil] at hstep
    rw [hstep,List.map_append,List.map_map] at hpend
    exact (List.pairwise_append.mp hpend).1
  obtain ⟨ctx,hctx⟩ := h.lastPendingRequestCtx
  rw [hctx]
  simp

end ReadOnly
end Parallax
