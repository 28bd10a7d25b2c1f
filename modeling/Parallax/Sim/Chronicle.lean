import Parallax.Kv.Explain
import Parallax.Sim.Lin

/-! Recorded histories against histories of events. A recorder that was told of every call and of every result knows of
each operation its command, its result and its times, and an order that explains the events explains what is checked. -/
namespace Parallax.Lin
open Std (ExtTreeMap)
open Kv Linear StateMachine
variable {h : ClientHistory} {card : UInt64 × UInt64 → Operation} {num : UInt64 × UInt64 → Nat} {hist : History}
  {id : UInt64 × UInt64} {op : Kv.Operation} {res : Result}

/-- The operations that were called, in the order of the calls. -/
def callers (h : ClientHistory) : List (UInt64 × UInt64) :=
  h.filterMap fun
    | .call id _ => some id
    | .ret _ _ => none

/-- Those with a result, in the order of the results. -/
def returns (h : ClientHistory) : List (UInt64 × UInt64) :=
  h.filterMap fun
    | .call _ _ => none
    | .ret id _ => some id

private theorem mem_callers : id ∈ callers h ↔ ∃ op, .call id op ∈ h := by
  simp only [callers,List.mem_filterMap]
  constructor
  · rintro ⟨e,he,hid⟩
    cases e with
    | call id' op =>
      obtain rfl := Option.some.inj hid
      exact ⟨op,he⟩
    | ret => cases hid
  · rintro ⟨op,he⟩
    exact ⟨_,he,rfl⟩

private theorem mem_returns : id ∈ returns h ↔ ∃ res, .ret id res ∈ h := by
  simp only [returns,List.mem_filterMap]
  constructor
  · rintro ⟨e,he,hid⟩
    cases e with
    | call => cases hid
    | ret id' res =>
      obtain rfl := Option.some.inj hid
      exact ⟨res,he⟩
  · rintro ⟨res,he⟩
    exact ⟨_,he,rfl⟩

private theorem nodup_callers (hw : WellFormed h) : (callers h).Nodup := by
  induction hw with
  | nil => exact .nil
  | @call h id op _ hnew ih =>
    have hsnoc : callers (h ++ [.call id op]) = callers h ++ [id] := by simp [callers]
    rw [hsnoc]
    refine ih.append (List.nodup_singleton id) fun a ha hid => ?_
    obtain ⟨op',hop⟩ := mem_callers.mp ha
    exact hnew op' (List.mem_singleton.mp hid ▸ hop)
  | @ret h id op res _ _ _ ih =>
    have hsame : callers (h ++ [.ret id res]) = callers h := by simp [callers]
    rwa [hsame]

private theorem nodup_returns (hw : WellFormed h) : (returns h).Nodup := by
  induction hw with
  | nil => exact .nil
  | @call h id op _ _ ih =>
    have hsame : returns (h ++ [.call id op]) = returns h := by simp [returns]
    rwa [hsame]
  | @ret h id op res _ _ hnew ih =>
    have hsnoc : returns (h ++ [.ret id res]) = returns h ++ [id] := by simp [returns]
    rw [hsnoc]
    refine ih.append (List.nodup_singleton id) fun a ha hid => ?_
    obtain ⟨res',hres⟩ := mem_returns.mp ha
    exact hnew res' (List.mem_singleton.mp hid ▸ hres)

/-- The recorder holds the events: `card id` is what it has of an operation, and `num id` the number it gave it. -/
structure Chronicles (h : ClientHistory) (card : UInt64 × UInt64 → Operation) (num : UInt64 × UInt64 → Nat)
    (hist : History) : Prop where
  called : ∀ id op, .call id op ∈ h → (card id).input = op.command id.1 id.2
  output : ∀ id res, .ret id res ∈ h → (card id).output = res
  ops : hist.ops = (returns h).map card
  num_lt : ∀ id op, .call id op ∈ h → num id < hist.nextID
  num_inj : ∀ id op id' op', .call id op ∈ h → .call id' op' ∈ h → num id = num id' → id = id'
  pending : ∀ j o, hist.pending[j]? = some o ↔
    ∃ id op, .call id op ∈ h ∧ (∀ res, .ret id res ∉ h) ∧ num id = j ∧ o = card id

/-- When the recorder was told of an event. -/
def moment (card : UInt64 × UInt64 → Operation) : Event (UInt64 × UInt64) Kv.Operation Result → Int
  | .call id _ => (card id).call.toInt
  | .ret id _ => (card id).ret.toInt

/-- The recorder's clock never went back, and it shows `now`. -/
def Timely (h : ClientHistory) (card : UInt64 × UInt64 → Operation) (now : Int) : Prop :=
  (h.Pairwise fun e e' => moment card e ≤ moment card e') ∧ ∀ e ∈ h, moment card e ≤ now

theorem chronicles_init (card : UInt64 × UInt64 → Operation) (num : UInt64 × UInt64 → Nat) : Chronicles [] card num {} where
  called _ _ hc := by cases hc
  output _ _ hr := by cases hr
  ops := rfl
  num_lt _ _ hc := by cases hc
  num_inj _ _ _ _ hc := by cases hc
  pending j o := by simp

theorem Timely.mono {now now' : Int} (ht : Timely h card now) (hle : now ≤ now') : Timely h card now' :=
  ⟨ht.1,fun e he => (ht.2 e he).trans hle⟩

theorem Timely.snoc {card' : UInt64 × UInt64 → Operation} {now : Int} (ht : Timely h card now)
    {e : Event (UInt64 × UInt64) Kv.Operation Result} (hold : ∀ e' ∈ h, moment card' e' = moment card e')
    (he : moment card' e = now) : Timely (h ++ [e]) card' now := by
  have hle : ∀ e' ∈ h, moment card' e' ≤ now := fun e' he' => hold e' he' ▸ ht.2 e' he'
  refine ⟨List.pairwise_append.mpr ⟨?_,List.pairwise_singleton _ _,fun e' he' e₁ he₁ => ?_⟩,fun e' he' => ?_⟩
  · refine ht.1.imp_of_mem fun {a b} ha hb hab => ?_
    rwa [hold a ha,hold b hb]
  · rw [List.mem_singleton.mp he₁,he]
    exact hle e' he'
  rcases List.mem_append.mp he' with he' | he'
  · exact hle e' he'
  · rw [List.mem_singleton.mp he',he]

theorem Timely.invoke {t : Int64} (hw : WellFormed h) (ht : Timely h card t.toInt) (hnew : ∀ op', .call id op' ∉ h)
    (op : Kv.Operation) : Timely (h ++ [.call id op])
      (Function.update card id { clientID := id.1, input := op.command id.1 id.2, call := t, ret := -1 }) t.toInt := by
  refine ht.snoc (fun e he => ?_) ?_
  · cases e with
    | call id' op' =>
      have hne : id' ≠ id := fun heq => hnew op' (heq ▸ he)
      simp only [moment,Function.update_of_ne hne]
    | ret id' res =>
      obtain ⟨op',hc⟩ := hw.called he
      have hne : id' ≠ id := fun heq => hnew op' (heq ▸ hc)
      simp only [moment,Function.update_of_ne hne]
  · simp only [moment,Function.update_self]

theorem Timely.complete {t : Int64} (ht : Timely h card t.toInt) (hnr : ∀ res', .ret id res' ∉ h) (res : Result) :
    Timely (h ++ [.ret id res]) (Function.update card id { card id with output := res, ret := t }) t.toInt := by
  refine ht.snoc (fun e he => ?_) ?_
  · cases e with
    | call id' op' =>
      by_cases heq : id' = id
      · simp only [moment,heq,Function.update_self]
      · simp only [moment,Function.update_of_ne heq]
    | ret id' res' =>
      have hne : id' ≠ id := fun heq => hnr res' (heq ▸ he)
      simp only [moment,Function.update_of_ne hne]
  · simp only [moment,Function.update_self]

/-- A call is recorded. -/
theorem Chronicles.invoke (hch : Chronicles h card num hist) (hw : WellFormed h) (hnew : ∀ op', .call id op' ∉ h) (op : Kv.Operation) (t : Int64) :
    Chronicles (h ++ [.call id op])
      (Function.update card id { clientID := id.1, input := op.command id.1 id.2, call := t, ret := -1 })
      (Function.update num id hist.nextID) (hist.invoke id.1 (op.command id.1 id.2) t).2 := by
  have hcall : ∀ {id' op'}, Event.call id' op' ∈ h ++ [Event.call id op] → .call id' op' ∈ h ∧ id' ≠ id ∨ id' = id ∧ op' = op := by
    intro id' op' hc
    rcases List.mem_append.mp hc with hc | hc
    · exact .inl ⟨hc,fun heq => hnew op' (heq ▸ hc)⟩
    · exact .inr (by simpa using hc)
  have hret : ∀ {id' res}, Event.ret id' res ∈ h ++ [Event.call id op] → .ret id' res ∈ h ∧ id' ≠ id := by
    intro id' res hr
    have hr : .ret id' res ∈ h := by simpa using hr
    obtain ⟨op',hc⟩ := hw.called hr
    exact ⟨hr,fun heq => hnew op' (heq ▸ hc)⟩
  refine ⟨fun id' op' hc => ?_,fun id' res hr => ?_,?_,fun id' op' hc => ?_,fun a opa b opb ha hb heq => ?_,fun j o => ?_⟩
  · rcases hcall hc with ⟨hc,hne⟩ | ⟨rfl,rfl⟩
    · rw [Function.update_of_ne hne]
      exact hch.called id' op' hc
    · rw [Function.update_self]
  · obtain ⟨hr,hne⟩ := hret hr
    rw [Function.update_of_ne hne]
    exact hch.output id' res hr
  · have hsame : returns (h ++ [.call id op]) = returns h := by simp [returns]
    rw [hsame]
    refine hch.ops.trans (List.map_congr_left fun id' hid' => ?_)
    obtain ⟨res,hr⟩ := mem_returns.mp hid'
    rw [Function.update_of_ne (hret (List.mem_append_left _ hr)).2]
  · rcases hcall hc with ⟨hc,hne⟩ | ⟨rfl,_⟩
    · rw [Function.update_of_ne hne]
      exact (hch.num_lt id' op' hc).trans (Nat.lt_succ_self _)
    · rw [Function.update_self]
      exact Nat.lt_succ_self _
  · rcases hcall ha with ⟨ha,hna⟩ | ⟨hid,_⟩ <;> rcases hcall hb with ⟨hb,hnb⟩ | ⟨hid',_⟩
    · rw [Function.update_of_ne hna,Function.update_of_ne hnb] at heq
      exact hch.num_inj a opa b opb ha hb heq
    · rw [Function.update_of_ne hna,hid',Function.update_self] at heq
      exact absurd (hch.num_lt a opa ha) (heq ▸ Nat.lt_irrefl _)
    · rw [Function.update_of_ne hnb,hid,Function.update_self] at heq
      exact absurd (hch.num_lt b opb hb) (heq ▸ Nat.lt_irrefl _)
    · exact hid.trans hid'.symm
  · simp only [History.invoke,ExtTreeMap.getElem?_insert,Std.compare_eq_iff_eq]
    split_ifs with hj
    · constructor
      · intro ho
        refine ⟨id,op,by simp,fun res hr => (hret hr).2 rfl,?_,?_⟩
        · rw [Function.update_self,hj]
        · rw [Function.update_self,← Option.some.inj ho]
      rintro ⟨id',op',hc,_,hnum,rfl⟩
      rcases hcall hc with ⟨hc,hne⟩ | ⟨rfl,_⟩
      · rw [Function.update_of_ne hne] at hnum
        exact absurd (hch.num_lt id' op' hc) (by omega)
      · rw [Function.update_self]
    rw [hch.pending j o]
    constructor
    · rintro ⟨id',op',hc,hno,hnum,rfl⟩
      have hne : id' ≠ id := fun heq => hnew op' (heq ▸ hc)
      refine ⟨id',op',List.mem_append_left _ hc,fun res hr => hno res (hret hr).1,?_,?_⟩
      · rwa [Function.update_of_ne hne]
      · rw [Function.update_of_ne hne]
    rintro ⟨id',op',hc,hno,hnum,rfl⟩
    rcases hcall hc with ⟨hc,hne⟩ | ⟨rfl,_⟩
    · rw [Function.update_of_ne hne] at hnum ⊢
      exact ⟨id',op',hc,fun res hr => hno res (List.mem_append_left _ hr),hnum,rfl⟩
    · rw [Function.update_self] at hnum
      exact absurd hnum hj

/-- A result is recorded. -/
theorem Chronicles.complete (hch : Chronicles h card num hist) (hc : .call id op ∈ h) (hnr : ∀ res', .ret id res' ∉ h) (res : Result) (t : Int64) :
    Chronicles (h ++ [.ret id res]) (Function.update card id { card id with output := res, ret := t }) num
      (hist.complete (num id) res t) := by
  have hcall : ∀ {id' op'}, Event.call id' op' ∈ h ++ [Event.ret id res] → .call id' op' ∈ h := by
    intro id' op' hc
    simpa using hc
  have hpend : hist.pending[num id]? = some (card id) := (hch.pending _ _).mpr ⟨id,op,hc,hnr,rfl,rfl⟩
  have hrun : hist.complete (num id) res t = { hist with
      pending := hist.pending.erase (num id)
      ops := hist.ops ++ [{ card id with output := res, ret := t }] } := by
    unfold History.complete
    rw [hpend]
  rw [hrun]
  have hinput : ∀ id', (Function.update card id { card id with output := res, ret := t } id').input = (card id').input := by
    intro id'
    by_cases heq : id' = id
    · rw [heq,Function.update_self]
    · rw [Function.update_of_ne heq]
  refine ⟨fun id' op' hc' => ?_,fun id' res' hr => ?_,?_,fun id' op' hc' => hch.num_lt id' op' (hcall hc'),
    fun a opa b opb ha hb => hch.num_inj a opa b opb (hcall ha) (hcall hb),fun j o => ?_⟩
  · rw [hinput]
    exact hch.called id' op' (hcall hc')
  · rcases List.mem_append.mp hr with hr | hr
    · have hne : id' ≠ id := fun heq => hnr res' (heq ▸ hr)
      rw [Function.update_of_ne hne]
      exact hch.output id' res' hr
    · obtain ⟨rfl,rfl⟩ : id' = id ∧ res' = res := by simpa using hr
      rw [Function.update_self]
  · have hsnoc : returns (h ++ [.ret id res]) = returns h ++ [id] := by simp [returns]
    rw [hsnoc,List.map_append,List.map_singleton,Function.update_self,hch.ops]
    refine congrArg (· ++ _) (List.map_congr_left fun id' hid' => ?_)
    obtain ⟨res',hr⟩ := mem_returns.mp hid'
    have hne : id' ≠ id := fun heq => hnr res' (heq ▸ hr)
    rw [Function.update_of_ne hne]
  simp only [ExtTreeMap.getElem?_erase,Std.compare_eq_iff_eq]
  split_ifs with hj
  · simp only [false_iff]
    rintro ⟨id',op',hc',hno,hnum,_⟩
    obtain rfl := hch.num_inj id' op' id op (hcall hc') hc (hnum.trans hj.symm)
    exact hno res (by simp)
  rw [hch.pending j o]
  constructor
  · rintro ⟨id',op',hc',hno,hnum,rfl⟩
    have hne : id' ≠ id := fun heq => hj (heq ▸ hnum)
    refine ⟨id',op',List.mem_append_left _ hc',fun res' hr => ?_,hnum,by rw [Function.update_of_ne hne]⟩
    rcases List.mem_append.mp hr with hr | hr
    · exact hno res' hr
    · exact hne (by simpa using hr : id' = id ∧ _).1
  rintro ⟨id',op',hc',hno,hnum,rfl⟩
  have hne : id' ≠ id := fun heq => hj (heq ▸ hnum)
  rw [Function.update_of_ne hne]
  exact ⟨id',op',hcall hc',fun res' hr => hno res' (List.mem_append_left _ hr),hnum,rfl⟩

open Classical in
/-- An operation as it is checked. -/
noncomputable def entry (h : ClientHistory) (card : UInt64 × UInt64 → Operation) (id : UInt64 × UInt64) : PorcupineOperation :=
  if ∃ res, .ret id res ∈ h then
    { clientId := (card id).clientID.toInt64, input := (card id).input, output := { known := true, res := (card id).output }
      call := (card id).call, ret := (card id).ret }
  else
    { clientId := (card id).clientID.toInt64, input := (card id).input, output := {}
      call := (card id).call, ret := Int64.maxValue }

private theorem entry_input : (entry h card id).input = (card id).input := by
  unfold entry
  split <;> rfl

private theorem entry_call : (entry h card id).call = (card id).call := by
  unfold entry
  split <;> rfl

private theorem entry_of_ret (hr : ∃ res, .ret id res ∈ h) :
    (entry h card id).output = { known := true, res := (card id).output } ∧
    (entry h card id).ret = (card id).ret := by
  unfold entry
  rw [if_pos hr]
  exact ⟨rfl,rfl⟩

private theorem entry_of_open (hr : ¬ ∃ res, .ret id res ∈ h) : (entry h card id).output = {} ∧
    (entry h card id).ret = Int64.maxValue := by
  unfold entry
  rw [if_neg hr]
  exact ⟨rfl,rfl⟩

namespace Chronicles
variable (hch : Chronicles h card num hist) (hw : WellFormed h)
include hch hw

theorem checked_perm : hist.checked.Perm ((callers h).map (entry h card)) := by
  classical
  -- The numbers of the operations without a result.
  have hnums : hist.pending.toList.Perm (((callers h).filter (· ∉ returns h)).map fun id => (num id,card id)) := by
    refine (List.perm_ext_iff_of_nodup ?_ ?_).mpr fun x => ?_
    · exact ExtTreeMap.distinct_keys_toList.imp fun hne heq => hne (by rw [heq]; exact Std.compare_self)
    · refine List.Nodup.map_on (fun a ha b hb heq => ?_) ((nodup_callers hw).filter _)
      obtain ⟨opa,hca⟩ := mem_callers.mp (List.mem_filter.mp ha).1
      obtain ⟨opb,hcb⟩ := mem_callers.mp (List.mem_filter.mp hb).1
      exact hch.num_inj a opa b opb hca hcb (Prod.mk.inj heq).1
    obtain ⟨j,o⟩ := x
    rw [ExtTreeMap.mem_toList_iff_getElem?_eq_some,hch.pending]
    simp only [List.mem_map,List.mem_filter,mem_callers,mem_returns,decide_eq_true_eq,Prod.mk.injEq,not_exists]
    constructor
    · rintro ⟨id,op,hc,hno,hnum,ho⟩
      exact ⟨id,⟨⟨op,hc⟩,hno⟩,hnum,ho.symm⟩
    · rintro ⟨id,⟨⟨op,hc⟩,hno⟩,hnum,ho⟩
      exact ⟨id,op,hc,hno,hnum,ho.symm⟩
  have hperm : hist.checked.Perm ((returns h).map (entry h card) ++ ((callers h).filter (· ∉ returns h)).map (entry h card)) := by
    refine List.Perm.append (.of_eq ?_) ?_
    · rw [History.operations,hch.ops,List.map_map]
      refine List.map_congr_left fun id hid => ?_
      unfold entry
      rw [if_pos (mem_returns.mp hid)]
      rfl
    rw [History.pendingOps,List.map_map]
    refine (hnums.map _).trans (.of_eq ?_)
    rw [List.map_map]
    refine List.map_congr_left fun id hid => ?_
    have hno : ¬ ∃ res, .ret id res ∈ h := fun hr => of_decide_eq_true (List.mem_filter.mp hid).2 (mem_returns.mpr hr)
    unfold entry
    rw [if_neg hno]
    rfl
  have hsplit : (returns h ++ (callers h).filter (· ∉ returns h)).Perm (callers h) := by
    refine (List.perm_ext_iff_of_nodup ?_ (nodup_callers hw)).mpr fun id => ?_
    · refine (nodup_returns hw).append ((nodup_callers hw).filter _) fun a ha hb => ?_
      exact of_decide_eq_true (List.mem_filter.mp hb).2 ha
    simp only [List.mem_append,List.mem_filter,decide_eq_true_eq]
    constructor
    · rintro (hid | ⟨hid,_⟩)
      · obtain ⟨res,hr⟩ := mem_returns.mp hid
        exact mem_callers.mpr (hw.called hr)
      · exact hid
    intro hid
    by_cases hr : id ∈ returns h
    · exact .inl hr
    · exact .inr ⟨hid,hr⟩
  rw [← List.map_append] at hperm
  exact hperm.trans (hsplit.map _)

omit hw in
theorem steps {l : List (Placed (UInt64 × UInt64) Kv.Operation Result)} (hcalled : ∀ x ∈ l, .call x.id x.op ∈ h)
    (hres : ∀ x ∈ l, ∀ res, .ret x.id res ∈ h → x.res = res) : ∀ {m : StateMachine} {st : Store},
      kvObject.Runs m.lookup l st → ∃ m', Steps StoreStep m (l.map fun x => entry h card x.id) m' := by
  induction l with
  | nil => exact fun _ => ⟨_,rfl⟩
  | cons x l ih =>
    rintro m st ⟨hx,hl⟩
    obtain ⟨res,m',hexec,hstep⟩ := m.execute_command x.op x.id.1 x.id.2
    rw [hstep] at hx hl
    obtain ⟨m'',hm''⟩ := ih (fun y hy => hcalled y (List.mem_cons_of_mem _ hy))
      (fun y hy => hres y (List.mem_cons_of_mem _ hy)) hl
    have hinput : (entry h card x.id).input = x.op.command x.id.1 x.id.2 := by
      rw [entry_input]
      exact hch.called _ _ (hcalled x List.mem_cons_self)
    refine ⟨m'',m',?_,hm''⟩
    unfold StoreStep
    rw [hinput]
    by_cases hr : ∃ res, .ret x.id res ∈ h
    · obtain ⟨answer,hanswer⟩ := hr
      obtain rfl : answer = res := (hres x List.mem_cons_self answer hanswer).symm.trans hx.symm
      rw [(entry_of_ret ⟨_,hanswer⟩).1,hch.output _ _ hanswer]
      exact ⟨answer,hexec,rfl,fun _ => rfl,fun _ => rfl⟩
    · rw [(entry_of_open hr).1]
      exact .inr ⟨res,hexec⟩

/-- What was recorded of a linearizable history passes the check. -/
theorem checkable {now : Int} (ht : Timely h card now) (hlin : Linearizable kvObject h) :
    ∃ l, Orders hist.checked l ∧ ∃ m, Steps StoreStep {} l m := by
  classical
  obtain ⟨l,⟨st,hrun⟩,hnodup,hcalled,hret,horder⟩ := hlin
  have hres : ∀ x ∈ l, ∀ res, .ret x.id res ∈ h → x.res = res := by
    intro x hx res hr
    obtain ⟨y,hy,hid,rfl⟩ := hret x.id res hr
    rw [List.inj_on_of_nodup_map hnodup hx hy hid.symm]
  -- Those that are not placed have no result, and come last.
  let late := (callers h).filter (· ∉ l.map (·.id))
  have hopen : ∀ id ∈ late, ¬ ∃ res, .ret id res ∈ h := by
    rintro id hid ⟨res,hr⟩
    obtain ⟨x,hx,hxid,_⟩ := hret id res hr
    exact of_decide_eq_true (List.mem_filter.mp hid).2 (List.mem_map.mpr ⟨x,hx,hxid⟩)
  have hperm : (l.map (·.id) ++ late).Perm (callers h) := by
    refine (List.perm_ext_iff_of_nodup (hnodup.append ((nodup_callers hw).filter _) fun a ha hb => ?_)
      (nodup_callers hw)).mpr fun id => ?_
    · exact of_decide_eq_true (List.mem_filter.mp hb).2 ha
    simp only [List.mem_append,List.mem_filter,decide_eq_true_eq]
    constructor
    · rintro (hid | ⟨hid,_⟩)
      · obtain ⟨x,hx,rfl⟩ := List.mem_map.mp hid
        exact mem_callers.mpr ⟨_,hcalled x hx⟩
      · exact hid
    intro hid
    by_cases hl : id ∈ l.map (·.id)
    · exact .inl hl
    · exact .inr ⟨hid,hl⟩
  have hnever : ∀ id, (¬ ∃ res, .ret id res ∈ h) → ∀ t : Int64, ¬ (entry h card id).ret.toInt < t.toInt := by
    intro id hno t
    rw [(entry_of_open hno).2]
    exact not_lt.mpr (Int64.toInt_le t)
  refine ⟨(l.map (·.id) ++ late).map (entry h card),⟨(hperm.map _).trans (hch.checked_perm hw).symm,?_⟩,?_⟩
  · rw [Respects,List.pairwise_map,List.pairwise_append]
    refine ⟨?_,?_,fun a _ b hb => hnever b (hopen b hb) _⟩
    · rw [List.pairwise_map]
      refine horder.imp_of_mem fun {x y} hx hy hno hlt => ?_
      by_cases hr : ∃ res, .ret y.id res ∈ h
      · obtain ⟨res,hr⟩ := hr
        rw [(entry_of_ret ⟨res,hr⟩).2,entry_call] at hlt
        -- The result was recorded earlier than the call, so it came earlier.
        obtain ⟨h₁,h₂,rfl⟩ := List.append_of_mem hr
        have hc := hcalled x hx
        rw [List.mem_append,List.mem_cons] at hc
        rcases hc with hc | hc | hc
        · have := (List.pairwise_append.mp ht.1).2.2 _ hc _ List.mem_cons_self
          exact absurd hlt (not_lt.mpr this)
        · cases hc
        · exact hno ⟨h₁ ++ [.ret y.id res],h₂,by simp,⟨res,by simp⟩,_,hc⟩
      · exact hnever y.id hr _ hlt
    · exact List.pairwise_of_forall_mem_list fun a _ b hb => hnever b (hopen b hb) _
  have hempty : (fun _ => none : Store) = StateMachine.lookup {} := by
    funext key
    exact (ExtTreeMap.getElem?_empty ..).symm
  have hrun : kvObject.Runs (StateMachine.lookup {}) l st := hempty ▸ hrun
  obtain ⟨m,hm⟩ := hch.steps hcalled hres hrun
  refine ⟨m,?_⟩
  rw [List.map_append,List.map_map]
  refine hm.append (Steps.of_const fun x hx => ?_)
  obtain ⟨id,hid,rfl⟩ := List.mem_map.mp hx
  unfold StoreStep
  rw [(entry_of_open (hopen id hid)).1]
  exact .inl rfl

end Chronicles
/-- What the store explains, the model explains for each key. -/
theorem groups_explained {hist : History} {l : List PorcupineOperation} {m : StateMachine} (hl : Orders hist.checked l)
    (hm : Steps StoreStep {} l m) :
    ∀ group ∈ partition hist.checked, ∃ l, Orders group l ∧ ∃ st₀ ∈ init, ∃ st, Steps KeyStep st₀ l st := by
  have hempty : keyState {} = fun _ => {} := funext fun k => keyState_none (Std.ExtTreeMap.getElem?_empty ..)
  obtain ⟨f,hf⟩ := (steps_view keyState (fun _ _ _ => StoreStep.pointwise) (fun _ _ _ => StoreStep.of_pointwise) _).mp ⟨m,hm⟩
  rw [hempty,steps_pointwise_iff] at hf
  intro group hgroup
  rw [partition_eq] at hgroup
  obtain ⟨k,_,rfl⟩ := List.mem_map.mp hgroup
  exact ⟨l.filter (·.input.key = k),⟨hl.1.filter _,hl.2.filter _⟩,{},List.mem_singleton_self _,f k,hf k⟩

end Parallax.Lin
