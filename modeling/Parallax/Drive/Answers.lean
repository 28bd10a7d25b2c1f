import Parallax.Drive.Refine
import Parallax.Kv.Explain

/-! What a node answers. A write is answered by applying its entry, a read from a state that covers what the read
was released with. -/
namespace Parallax.Drive
open Kv StateMachine

/-- A result was given with part of the committed log `xs` applied: to a read that `gets` knows, with at least `need`
applied, or to a write by the entry just applied. -/
def Given (xs : List Entry) (need : ClientKey → Nat) (gets : ClientKey → Bytes → Prop) (r : Reply) : Prop :=
  ∀ res, r.answer = .result res → r.applied ≤ xs.length ∧
    match r.resp.req with
    | .read key op => gets op key ∧ need op ≤ r.applied ∧ res = (fold (xs.take r.applied)).read key
    | .propose asked => ∃ ys e cmd m', xs.take r.applied = ys ++ [e] ∧ command? e = some cmd ∧
        (cmd.clientID,cmd.seq) = (asked.clientID,asked.seq) ∧ (fold ys).apply cmd = some (res,m')

theorem Given.mono {xs xs' : List Entry} {need need' : ClientKey → Nat} {gets gets' : ClientKey → Bytes → Prop}
    {r : Reply} (h : Given xs need gets r) (hx : xs <+: xs') (hg : ∀ op key, gets op key → gets' op key)
    (hn : ∀ op key, gets op key → need' op = need op) : Given xs' need' gets' r := by
  intro res hres
  obtain ⟨hle,h⟩ := h res hres
  refine ⟨hle.trans hx.length_le,?_⟩
  rw [take_of_isPrefix hx hle]
  cases hreq : r.resp.req with
  | read key op =>
    rw [hreq] at h
    obtain ⟨hk,hle,hres⟩ := h
    exact ⟨hg _ _ hk,hn _ _ hk ▸ hle,hres⟩
  | propose asked =>
    rw [hreq] at h
    exact h

/-- By what the state of a node is judged while it settles a batch: the committed log, how much of it an operation must
see, the reads asked for, the waiters at the start, and what is known of the reads released. -/
structure Terms where
  log : List Entry
  need : ClientKey → Nat
  gets : ClientKey → Bytes → Prop
  waits : Bytes → ReadWaiter → Prop
  asked : Bytes → Prop
  leads : Bool
  token : UInt64

/-- A released read was asked for, at an index that covers what its waiter must see. -/
def Terms.Due (T : Terms) (rs : ReadState) : Prop :=
  T.asked rs.requestCtx ∧ ∀ w, T.waits rs.requestCtx w → T.need w.op ≤ rs.index

/-- Waiters are filed under what their requests ask for. -/
structure Server.Filed (s : Server) : Prop where
  reads : ∀ ctx w, s.readWaiters.lookup ctx = some w → w.resp.req = .read w.key w.op
  writes : ∀ op resp, s.writeWaiters.lookup op = some resp →
    ∃ asked, resp.req = .propose asked ∧ (asked.clientID,asked.seq) = op

theorem Server.Filed.erase_read {s : Server} (h : s.Filed) (ctx : Bytes) :
    Filed { s with readWaiters := s.readWaiters.erase ctx } where
  reads ctx' w hl := by
    by_cases hctx : ctx' = ctx
    · rw [hctx,AList.lookup_erase] at hl
      cases hl
    · rw [AList.lookup_erase_ne hctx] at hl
      exact h.reads ctx' w hl
  writes := h.writes

theorem Server.Filed.erase_write {s : Server} (h : s.Filed) (op : ClientKey) :
    Filed { s with writeWaiters := s.writeWaiters.erase op } where
  reads := h.reads
  writes op' resp hl := by
    by_cases hop : op' = op
    · rw [hop,AList.lookup_erase] at hl
      cases hl
    · rw [AList.lookup_erase_ne hop] at hl
      exact h.writes op' resp hl

/-- The node is within the terms. -/
structure Serves (T : Terms) (s : Server) : Prop where
  le : s.applied ≤ T.log.length
  sm : s.sm = fold (T.log.take s.applied)
  waiters : ∀ ctx w, s.readWaiters.lookup ctx = some w → T.waits ctx w ∧ T.gets w.op w.key
  filed : s.Filed
  pending : ∀ rs ∈ s.pendingReads, T.Due rs
  replies : ∀ r ∈ s.replies, Given T.log T.need T.gets r
  prevLeader : s.prevLeader = T.leads
  readToken : s.readToken = T.token

namespace Serves
variable {T : Terms} {s : Server}

private theorem serveRead (h : Serves T s) {rs : ReadState} (hle : rs.index ≤ s.applied) (hd : T.Due rs) :
    Serves T (s.serveRead rs) := by
  unfold Server.serveRead
  split
  · exact h
  rename_i w hw
  obtain ⟨hwait,hgets⟩ := h.waiters _ w hw
  have hfiled := h.filed.erase_read rs.requestCtx
  refine ⟨h.le,h.sm,fun ctx w' hl => ?_,⟨hfiled.reads,hfiled.writes⟩,h.pending,fun r hr => ?_,h.prevLeader,h.readToken⟩
  · change (s.readWaiters.erase rs.requestCtx).lookup ctx = some w' at hl
    by_cases hctx : ctx = rs.requestCtx
    · rw [hctx,AList.lookup_erase] at hl
      cases hl
    · rw [AList.lookup_erase_ne hctx] at hl
      exact h.waiters ctx w' hl
  rcases List.mem_cons.mp hr with rfl | hr
  · intro res hres
    obtain rfl := Answer.result.inj hres
    refine ⟨h.le,?_⟩
    rw [h.filed.reads _ w hw]
    exact ⟨hgets,(hd.2 w hwait).trans hle,congrArg (·.read w.key) h.sm⟩
  · exact h.replies r hr

theorem servePendingReads (h : Serves T s) : Serves T s.servePendingReads := by
  have hall : ∀ (l : List ReadState) (s' : Server), Serves T s' → s'.applied = s.applied →
      (∀ rs ∈ l, rs.index ≤ s.applied ∧ T.Due rs) → Serves T (l.foldl Server.serveRead s') := by
    intro l
    induction l with
    | nil => exact fun _ h _ _ => h
    | cons rs l ih =>
      intro s' hs' happ hl
      have hrs := hl rs (by simp)
      exact ih _ (hs'.serveRead (happ ▸ hrs.1) hrs.2) ((s'.serveRead_alike rs).applied.trans happ)
        fun rs' hrs' => hl rs' (by simp [hrs'])
  have hserved := hall (s.pendingReads.filter fun rs => s.applied ≥ rs.index) s h rfl fun rs hrs => by
    obtain ⟨hmem,hle⟩ := List.mem_filter.mp hrs
    exact ⟨of_decide_eq_true hle,h.pending rs hmem⟩
  exact ⟨hserved.le,hserved.sm,hserved.waiters,⟨hserved.filed.reads,hserved.filed.writes⟩,fun rs hrs => h.pending rs (List.mem_filter.mp hrs).1,
    hserved.replies,hserved.prevLeader,hserved.readToken⟩

private theorem releaseRead (h : Serves T s) {rs : ReadState} (hd : T.Due rs) : Serves T (s.releaseRead rs) := by
  unfold Server.releaseRead
  split
  · rename_i hle
    exact h.serveRead hle hd
  refine ⟨h.le,h.sm,h.waiters,⟨h.filed.reads,h.filed.writes⟩,fun rs' hrs' => ?_,h.replies,h.prevLeader,h.readToken⟩
  rcases List.mem_append.mp hrs' with hrs' | hrs'
  · exact h.pending rs' hrs'
  · exact List.mem_singleton.mp hrs' ▸ hd

private theorem completeWrite (h : Serves T s) {op : ClientKey} {res : Result} (hg : ∀ resp : Chan,
      (∃ asked, resp.req = .propose asked ∧ (asked.clientID,asked.seq) = op) →
      Given T.log T.need T.gets ⟨resp,.result res,s.applied⟩) : Serves T (s.completeWrite op res) := by
  unfold Server.completeWrite
  split
  · exact h
  rename_i resp hresp
  have hfiled := h.filed.erase_write op
  refine ⟨h.le,h.sm,h.waiters,⟨hfiled.reads,hfiled.writes⟩,h.pending,fun r hr => ?_,h.prevLeader,h.readToken⟩
  rcases List.mem_cons.mp hr with rfl | hr
  · exact hg resp (h.filed.writes op resp hresp)
  · exact h.replies r hr

theorem applyEntry (h : Serves T s) {e : Entry} (he : T.log[s.applied]? = some e) (hidx : e.index = s.applied + 1) :
    Serves T (s.applyEntry e) := by
  have hsucc := take_succ_of_getElem? he
  have hlt : s.applied < T.log.length := (List.getElem?_eq_some_iff.mp he).1
  have hstep : ∀ m, m = (s.sm.applyEntry e).1 → Serves T { s with applied := s.applied + 1, sm := m } := by
    rintro m rfl
    refine ⟨hlt,?_,h.waiters,⟨h.filed.reads,h.filed.writes⟩,h.pending,h.replies,h.prevLeader,h.readToken⟩
    rw [hsucc,fold_append_singleton,← h.sm]
  rw [applyEntry_eq] at hstep
  unfold Server.applyEntry
  rw [hidx,if_neg (by omega)]
  split
  · rename_i hn
    simp only [command?,if_pos hn] at hstep
    cases hdec : decodeCommand e.data with
    | error err =>
      rw [hdec] at hstep
      exact hstep _ rfl
    | ok cmd =>
      simp only [hdec,Except.toOption] at hstep ⊢
      cases happ : s.sm.apply cmd with
      | none =>
        rw [happ] at hstep
        exact hstep _ rfl
      | some r =>
        obtain ⟨res,m'⟩ := r
        rw [happ] at hstep
        refine servePendingReads (completeWrite (hstep m' rfl) fun resp hresp res' hres => ⟨hlt,?_⟩)
        obtain ⟨asked,hreq,hkey⟩ := hresp
        obtain rfl := Answer.result.inj hres
        rw [hreq]
        exact ⟨_,e,cmd,m',hsucc,by rw [command?,if_pos hn,hdec]; rfl,hkey.symm,h.sm ▸ happ⟩
  rename_i hn
  simp only [command?,if_neg hn] at hstep
  exact (hstep _ rfl).servePendingReads

theorem applyEntries (hidx : ∀ k e, T.log[k]? = some e → e.index = k + 1) (k : Nat) : ∀ {s : Server}, Serves T s →
    s.applied + k = T.log.length → Serves T ((T.log.drop s.applied).foldl Server.applyEntry s) := by
  induction k with
  | zero =>
    intro s h hk
    rw [List.drop_eq_nil_of_le (by omega)]
    exact h
  | succ k ih =>
    intro s h hk
    obtain ⟨e,he⟩ : ∃ e, T.log[s.applied]? = some e := ⟨_,List.getElem?_eq_getElem (by omega)⟩
    have hcons : T.log.drop s.applied = e :: T.log.drop (s.applied + 1) := by
      rw [List.drop_eq_getElem?_toList_append,he]
      rfl
    have happ : (s.applyEntry e).applied = s.applied + 1 := by
      rw [(s.applyEntry_alike e).applied,hidx _ e he,if_neg (by omega)]
    rw [hcons,List.foldl_cons,← happ]
    exact ih (h.applyEntry he (hidx _ e he)) (by omega)

theorem settle (h : Serves T s) (hidx : ∀ k e, T.log[k]? = some e → e.index = k + 1) {rd : Ready}
    (hce : rd.committedEntries = T.log.drop s.applied) (hrs : ∀ rs ∈ rd.readStates, T.Due rs) :
    Serves T (s.settle rd) := by
  have hall : ∀ (l : List ReadState) (s' : Server), Serves T s' → (∀ rs ∈ l, T.Due rs) →
      Serves T (l.foldl Server.releaseRead s') := by
    intro l
    induction l with
    | nil => exact fun _ h _ => h
    | cons rs l ih =>
      intro s' hs' hl
      exact ih _ (hs'.releaseRead (hl rs (by simp))) fun rs' hrs' => hl rs' (by simp [hrs'])
  unfold Server.settle
  refine hall _ _ ?_ hrs
  rw [hce]
  have hle := h.le
  exact h.applyEntries hidx (T.log.length - s.applied) (by omega)

/-- The whole drain. -/
theorem emptied (h : Serves T s) (hidx : ∀ k e, T.log[k]? = some e → e.index = k + 1) {s' : Server}
    (he : s.Emptied s') (hrd : ∀ rd, s.node.ready = .ok rd → rd.committedEntries = T.log.drop s.applied ∧
      ∀ rs ∈ rd.readStates, T.Due rs) : Serves T s' := by
  rcases he with ⟨_,rfl⟩ | ⟨rd,r,stor,hready,rfl⟩
  · exact h
  obtain ⟨hce,hrs⟩ := hrd rd hready
  have hset := h.settle hidx hce hrs
  exact ⟨hset.le,hset.sm,hset.waiters,⟨hset.filed.reads,hset.filed.writes⟩,hset.pending,hset.replies,hset.prevLeader,hset.readToken⟩

end Serves
end Parallax.Drive
