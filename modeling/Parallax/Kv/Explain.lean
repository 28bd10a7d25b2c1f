import Parallax.Kv.Spec

/-! Client histories explained by a log. Writes take effect with the entry that executes them, reads in the state
that had been applied when they were answered. -/
namespace Parallax.Kv
open Linear StateMachine

instance : (op : Operation) → Decidable op.IsGet
  | .get _ => isTrue trivial
  | .put _ _ | .delete _ | .cas _ _ _ => isFalse id

theorem take_succ_of_getElem? {L : List Entry} {k : Nat} {e : Entry} (he : L[k]? = some e) :
    L.take (k + 1) = L.take k ++ [e] := by
  rw [List.take_add_one,he]
  rfl

theorem take_of_isPrefix {L L' : List Entry} (h : L <+: L') {k : Nat} (hk : k ≤ L.length) : L'.take k = L.take k := by
  obtain ⟨ws,rfl⟩ := h
  exact List.take_append_of_le_length hk

/-- Calls and results, named by client and sequence number. -/
abbrev ClientHistory := List (Linear.Event (UInt64 × UInt64) Operation Result)

/-- An answer given with `point` entries of `L` applied to an operation called behind `floor` of them. -/
inductive Answers (L : List Entry) (floor point : Nat) (id : UInt64 × UInt64) : Operation → Result → Prop
  | read (key : Bytes) (hfloor : floor ≤ point) (hlen : point ≤ L.length) :
    Answers L floor point id (.get key) ((fold (L.take point)).read key)
  | write {op : Operation} {res : Result} {zs : List Entry} {e : Entry} (hw : ¬ op.IsGet) (hlen : point ≤ L.length)
    (hpre : zs ++ [e] <+: L.take point) (hex : Executes zs e (op.command id.1 id.2) res) :
    Answers L floor point id op res

theorem Answers.point_le {L : List Entry} {floor point : Nat} {id : UInt64 × UInt64} {op : Operation} {res : Result}
    (h : Answers L floor point id op res) : point ≤ L.length := by
  cases h with
  | read _ _ hlen | write _ hlen => exact hlen

theorem Answers.mono {L L' : List Entry} {floor point : Nat} {id : UInt64 × UInt64} {op : Operation} {res : Result}
    (h : Answers L floor point id op res) (hL : L <+: L') : Answers L' floor point id op res := by
  have hlen' := h.point_le.trans hL.length_le
  have htake := take_of_isPrefix hL h.point_le
  cases h with
  | read key hfloor => exact htake ▸ .read key hfloor hlen'
  | write hw _ hpre hex => exact .write hw hlen' (htake ▸ hpre) hex

/-- The log accounts for the history. -/
structure Explains (L : List Entry) (floor point : UInt64 × UInt64 → Nat) (h : ClientHistory) : Prop where
  wf : WellFormed h
  floor_le : ∀ id op, .call id op ∈ h → floor id ≤ L.length
  order : ∀ a b, Precedes h a b → point a ≤ floor b
  carried : ∀ e ∈ L, ∀ cmd, command? e = some cmd → ∃ id op, .call id op ∈ h ∧ ¬ op.IsGet ∧ cmd = op.command id.1 id.2
  absent : ∀ id op, .call id op ∈ h → ∀ e ∈ L.take (floor id), command? e ≠ some (op.command id.1 id.2)
  answered : ∀ id op res, .call id op ∈ h → .ret id res ∈ h → Answers L (floor id) (point id) id op res

/-- What entry `k` of the log executes, as an update of stage `k + 1`. -/
def executed (L : List Entry) : Nat → Option (Placed (UInt64 × UInt64) Operation Result)
  | 0 => none
  | k + 1 =>
    L[k]?.bind fun e => (command? e).bind fun cmd =>
      if Fresh (commandsOf (L.take k)) cmd then
        ((fold (L.take k)).execute cmd).map fun r => ⟨(cmd.clientID,cmd.seq),.ofCommand cmd,r.1⟩
      else none

private theorem executed_succ {L : List Entry} {k : Nat} {x : Placed (UInt64 × UInt64) Operation Result} :
    executed L (k + 1) = some x ↔ ∃ e cmd, L[k]? = some e ∧ Executes (L.take k) e cmd x.res ∧
      x.id = (cmd.clientID,cmd.seq) ∧ x.op = .ofCommand cmd := by
  simp only [executed,Option.bind_eq_some_iff]
  constructor
  · rintro ⟨e,he,cmd,hc,hx⟩
    split at hx
    · rename_i hf
      obtain ⟨r,hr,rfl⟩ := Option.map_eq_some_iff.mp hx
      exact ⟨e,cmd,he,⟨hc,hf,r.2,hr⟩,rfl,rfl⟩
    · cases hx
  rintro ⟨e,cmd,he,hex,hid,hop⟩
  obtain ⟨m',hm'⟩ := hex.result
  refine ⟨e,he,cmd,hex.command,?_⟩
  rw [if_pos hex.fresh,hm',Option.map_some,← hid,← hop]

open Classical in
/-- The operation an id was called for. -/
noncomputable def nameOf (h : ClientHistory) (id : UInt64 × UInt64) : Operation :=
  if hc : ∃ op, .call id op ∈ h then hc.choose else .get []

/-- The reads answered with `k` entries applied. -/
noncomputable def readsAt (h : ClientHistory) (point : UInt64 × UInt64 → Nat) (k : Nat) :
    List (Placed (UInt64 × UInt64) Operation Result) :=
  (answers (nameOf h) h).filter fun x => x.op.IsGet ∧ point x.id = k

/-- Behind each entry the reads that were answered there. -/
noncomputable def orderOf (L : List Entry) (point : UInt64 × UInt64 → Nat) (h : ClientHistory) :
    List (Placed (UInt64 × UInt64) Operation Result) :=
  staged (executed L) (readsAt h point) (L.length + 1)

/-- The store in front of stage `k`. -/
def storeAt (L : List Entry) (k : Nat) : Store := (fold (L.take (k - 1))).lookup

namespace Explains
variable {L : List Entry} {floor point : UInt64 × UInt64 → Nat} {h : ClientHistory}
  {x : Placed (UInt64 × UInt64) Operation Result} {k : Nat}

private theorem nameOf_eq (hw : WellFormed h) {id : UInt64 × UInt64} {op : Operation} (hc : .call id op ∈ h) :
    nameOf h id = op := by
  have hex : ∃ op, Linear.Event.call id op ∈ h := ⟨op,hc⟩
  rw [nameOf,dif_pos hex]
  exact hw.call_unique hex.choose_spec hc

variable (hx : Explains L floor point h)
include hx

private theorem of_executed (hu : executed L (k + 1) = some x) : ∃ e, L[k]? = some e ∧
    Executes (L.take k) e (x.op.command x.id.1 x.id.2) x.res ∧ .call x.id x.op ∈ h ∧ ¬ x.op.IsGet := by
  obtain ⟨e,cmd,he,hex,hid,hop⟩ := executed_succ.mp hu
  obtain ⟨id,op,hc,hw,rfl⟩ := hx.carried e (List.mem_of_getElem? he) cmd hex.command
  rw [Operation.ofCommand_command] at hop
  rw [Operation.command_clientID,Operation.command_seq,Prod.mk.eta] at hid
  rw [hop,hid]
  exact ⟨e,he,hex,hc,hw⟩

private theorem floor_le_of_executed (hu : executed L (k + 1) = some x) : floor x.id ≤ k := by
  obtain ⟨e,he,hex,hc,_⟩ := hx.of_executed hu
  by_contra hlt
  refine hx.absent _ _ hc e ?_ hex.command
  have hget : (L.take (floor x.id))[k]? = some e := by rw [List.getElem?_take_of_lt (by omega),he]
  exact List.mem_of_getElem? hget

theorem executed_le_point (hu : executed L (k + 1) = some x) {res : Result} (hr : .ret x.id res ∈ h) :
    k + 1 ≤ point x.id := by
  obtain ⟨e,he,hex,hc,hw⟩ := hx.of_executed hu
  generalize x.op = op at hc hw hex
  cases hx.answered _ _ _ hc hr with
  | read key => exact absurd trivial hw
  | @write _ _ zs e' _ _ hpre hex' =>
    have hz : zs ++ [e'] <+: L := hpre.trans (List.take_prefix _ _)
    have hlen := hpre.length_le
    simp only [List.length_append,List.length_singleton,List.length_take] at hlen
    -- One command is executed at one place only.
    have hge : ¬ zs.length < k := fun hlt => UInt64.lt_irrefl _ (hex'.unique hex
      (List.prefix_of_prefix_length_le hz (List.take_prefix k L) (by simp; omega)) rfl)
    omega

private theorem of_readsAt (hq : x ∈ readsAt h point k) : .call x.id x.op ∈ h ∧ .ret x.id x.res ∈ h ∧ point x.id = k ∧
    floor x.id ≤ k ∧ k ≤ L.length ∧ ∃ key, x.op = .get key ∧ x.res = (fold (L.take k)).read key := by
  obtain ⟨hmem,hget⟩ := List.mem_filter.mp hq
  obtain ⟨hr,hop⟩ := mem_answers.mp hmem
  obtain ⟨hget,hp⟩ := of_decide_eq_true hget
  obtain ⟨op,hc⟩ := hx.wf.called hr
  rw [nameOf_eq hx.wf hc] at hop
  rw [← hop] at hc
  refine ⟨hc,hr,hp,?_⟩
  have ha := hx.answered _ _ _ hc hr
  rw [hp] at ha
  generalize x.op = op₁ at ha hget
  generalize x.res = res at ha
  cases ha with
  | read key hfloor hlen => exact ⟨hfloor,hlen,key,rfl,rfl⟩
  | write hw => exact absurd hget hw

theorem of_staged (hs : executed L k = some x ∨ x ∈ readsAt h point k) : .call x.id x.op ∈ h ∧ floor x.id ≤ k ∧
    ∀ res, .ret x.id res ∈ h → k ≤ point x.id := by
  rcases hs with hu | hq
  · cases k with
    | zero => cases hu
    | succ k =>
      obtain ⟨_,_,_,hc,_⟩ := hx.of_executed hu
      exact ⟨hc,(hx.floor_le_of_executed hu).trans k.le_succ,fun _ hr => hx.executed_le_point hu hr⟩
  · obtain ⟨hc,_,hp,hf,_⟩ := hx.of_readsAt hq
    exact ⟨hc,hf,fun _ _ => hp.ge⟩

private theorem legal : kvObject.Runs (storeAt L 0) (orderOf L point h) (storeAt L (L.length + 1)) := by
  refine Object.runs_staged (fun k hk => ?_) fun k _ x hq => ?_
  · cases k with
    | zero => exact .inl ⟨rfl,rfl⟩
    | succ k =>
      simp only [storeAt,Nat.add_sub_cancel]
      obtain ⟨e,he⟩ : ∃ e, L[k]? = some e := ⟨_,List.getElem?_eq_getElem (by omega)⟩
      rw [take_succ_of_getElem? he]
      obtain ⟨hfresh,hstale⟩ := fold_step (L.take k) e
      cases hu : executed L (k + 1) with
      | some x =>
        obtain ⟨e',he',hex,_⟩ := hx.of_executed hu
        obtain rfl := Option.some.inj (he.symm.trans he')
        obtain ⟨res,hex',hstep⟩ := hfresh _ _ _ hex.command hex.fresh
        obtain ⟨m₁,h₁⟩ := hex.result
        obtain ⟨m₂,h₂⟩ := hex'.result
        obtain ⟨hres,_⟩ := Prod.mk.inj (Option.some.inj (h₁.symm.trans h₂))
        exact .inr ⟨x,rfl,hres ▸ hstep⟩
      | none =>
        refine .inl ⟨rfl,congrArg _ (hstale fun cmd hc hf => ?_)⟩
        obtain ⟨id,op,_,_,rfl⟩ := hx.carried e (List.mem_of_getElem? he) cmd hc
        obtain ⟨res,hex,_⟩ := hfresh op id.1 id.2 hc hf
        have hsome : executed L (k + 1) = some ⟨_,_,res⟩ := executed_succ.mpr ⟨e,_,he,hex,rfl,rfl⟩
        rw [hu] at hsome
        cases hsome
  obtain ⟨_,_,_,_,_,key,hop,hres⟩ := hx.of_readsAt hq
  rw [hop,hres,storeAt,Nat.add_sub_cancel]
  exact read_eq _ key

theorem nodup : ((orderOf L point h).map (·.id)).Nodup := by
  rw [List.Nodup,List.pairwise_map]
  -- An update and a read are not the same operation.
  have hkind : ∀ {i j x y}, executed L i = some x → y ∈ readsAt h point j → x.id ≠ y.id := by
    intro i j x y hu hq heq
    cases i with
    | zero => cases hu
    | succ i =>
      obtain ⟨_,_,_,hc,hw⟩ := hx.of_executed hu
      obtain ⟨hc',_,_,_,_,key,hop,_⟩ := hx.of_readsAt hq
      rw [heq] at hc
      rw [hx.wf.call_unique hc hc',hop] at hw
      exact hw trivial
  refine pairwise_staged (fun i j hij hj x y hxi hyj heq => ?_) (fun k _ x y hu hq => hkind hu hq) fun k _ => ?_
  · rcases hxi with hui | hqi <;> rcases hyj with huj | hqj
    · cases i with
      | zero => cases hui
      | succ i =>
        obtain ⟨j,rfl⟩ := Nat.exists_eq_add_of_lt (Nat.lt_of_le_of_lt (Nat.zero_le _) hij)
        rw [Nat.zero_add] at huj hij
        obtain ⟨e,he,hex,_⟩ := hx.of_executed hui
        obtain ⟨_,_,hex',_⟩ := hx.of_executed huj
        have hpre : L.take i ++ [e] <+: L.take j := by
          rw [← take_succ_of_getElem? he]
          exact List.take_prefix_take_left (by omega)
        have hlt := hex.unique hex' hpre (by simp [heq])
        simp [heq] at hlt
    · exact hkind hui hqj heq
    · exact hkind huj hqi heq.symm
    have hpi := (hx.of_readsAt hqi).2.2.1
    have hpj := (hx.of_readsAt hqj).2.2.1
    rw [heq] at hpi
    omega
  · exact ((hx.wf.answers_pairwise (nameOf h)).filter _).imp fun hxy => hxy.1

private theorem inOrder : (orderOf L point h).Pairwise fun x y => ¬ Precedes h y.id x.id := by
  have hlate : ∀ {i j x y}, (executed L i = some x ∨ x ∈ readsAt h point i) →
      (executed L j = some y ∨ y ∈ readsAt h point j) → Precedes h y.id x.id → j ≤ floor x.id := by
    intro i j x y _ hyj hp
    obtain ⟨res,hr⟩ := hp.returned
    exact ((hx.of_staged hyj).2.2 res hr).trans (hx.order _ _ hp)
  refine pairwise_staged (fun i j hij _ x y hxi hyj hp => ?_) (fun k _ x y hu hq hp => ?_) fun k _ => ?_
  · have := hlate hxi hyj hp
    have := (hx.of_staged hxi).2.1
    omega
  · have := hlate (.inl hu) (.inr hq) hp
    cases k with
    | zero => cases hu
    | succ k =>
      have := hx.floor_le_of_executed hu
      omega
  · exact ((hx.wf.answers_pairwise (nameOf h)).filter _).imp fun hxy => hxy.2

private theorem returned {id : UInt64 × UInt64} {res : Result} (hr : .ret id res ∈ h) :
    ∃ x ∈ orderOf L point h, x.id = id ∧ x.res = res := by
  obtain ⟨op,hc⟩ := hx.wf.called hr
  have hname := nameOf_eq hx.wf hc
  cases hx.answered id op res hc hr with
  | read key _ hlen =>
    have hmem : (⟨id,.get key,_⟩ : Placed _ _ _) ∈ readsAt h point (point id) := List.mem_filter.mpr
      ⟨mem_answers.mpr ⟨hr,hname.symm⟩,decide_eq_true ⟨trivial,rfl⟩⟩
    exact ⟨_,mem_staged.mpr ⟨point id,by omega,.inr hmem⟩,rfl,rfl⟩
  | @write _ _ zs e hw _ hpre hex =>
    obtain ⟨ws,hws⟩ := hpre.trans (List.take_prefix _ _)
    have hlen : zs.length < L.length := by
      rw [← hws]
      simp
    have hzs : L.take zs.length = zs := by
      rw [← hws,List.append_assoc,List.take_left']
      rfl
    have hu : executed L (zs.length + 1) = some ⟨id,op,res⟩ := by
      refine executed_succ.mpr ⟨e,_,?_,hzs.symm ▸ hex,?_,(Operation.ofCommand_command _ _ _).symm⟩
      · rw [← hws]
        simp
      · simp
    exact ⟨_,mem_staged.mpr ⟨_,by omega,.inl hu⟩,rfl,rfl⟩

/-- A history that a log explains is linearizable. -/
theorem linearizable : Linearizable kvObject h := by
  refine ⟨orderOf L point h,⟨_,hx.legal⟩,hx.nodup,fun x hmem => ?_,fun _ _ => hx.returned,hx.inOrder⟩
  obtain ⟨k,_,hs⟩ := mem_staged.mp hmem
  exact (hx.of_staged hs).1

omit hx in
theorem init (floor point : UInt64 × UInt64 → Nat) : Explains [] floor point [] where
  wf := .nil
  floor_le _ _ hc := by cases hc
  order a b hp := by
    obtain ⟨res,hr⟩ := hp.returned
    cases hr
  carried _ he := by cases he
  absent _ _ hc := by cases hc
  answered _ _ _ hc := by cases hc

/-- More of the log is known. -/
theorem grow {L' : List Entry} (hL : L <+: L') (hc : ∀ e ∈ L', ∀ cmd, command? e = some cmd →
    ∃ id op, .call id op ∈ h ∧ ¬ op.IsGet ∧ cmd = op.command id.1 id.2) : Explains L' floor point h where
  wf := hx.wf
  floor_le id op hid := (hx.floor_le id op hid).trans hL.length_le
  order := hx.order
  carried := hc
  absent id op hid := by
    rw [take_of_isPrefix hL (hx.floor_le id op hid)]
    exact hx.absent id op hid
  answered id op res hid hr := (hx.answered id op res hid hr).mono hL

theorem call {id : UInt64 × UInt64} (hnew : ∀ op', .call id op' ∉ h) (op : Operation) :
    Explains L (Function.update floor id L.length) point (h ++ [.call id op]) := by
  have hold : ∀ {id' op'}, Linear.Event.call id' op' ∈ h → Function.update floor id L.length id' = floor id' := by
    intro id' op' hc
    have hne : id' ≠ id := fun heq => hnew op' (heq ▸ hc)
    exact Function.update_of_ne hne _ _
  have hcall : ∀ {id' op'}, Linear.Event.call id' op' ∈ h ++ [.call id op] → .call id' op' ∈ h ∨ (id' = id ∧ op' = op) := by
    intro id' op' hc
    simpa using hc
  refine ⟨.call op hx.wf hnew,fun id' op' hc => ?_,fun a b hp => ?_,fun e he cmd hcmd => ?_,fun id' op' hc e he hcmd => ?_,
    fun id' op' res hc hr => ?_⟩
  · rcases hcall hc with hc | ⟨rfl,_⟩
    · exact hold hc ▸ hx.floor_le id' op' hc
    · rw [Function.update_self]
  · rcases hp.of_snoc with hp | ⟨⟨op',he⟩,res,hr⟩
    · obtain ⟨op',hc⟩ := hp.called
      exact hold hc ▸ hx.order a b hp
    obtain ⟨rfl,_⟩ := Event.call.inj he
    obtain ⟨op₁,hc₁⟩ := hx.wf.called hr
    rw [Function.update_self]
    exact (hx.answered a op₁ res hc₁ hr).point_le
  · obtain ⟨id',op',hc,hrest⟩ := hx.carried e he cmd hcmd
    exact ⟨id',op',List.mem_append_left _ hc,hrest⟩
  · rcases hcall hc with hc | ⟨rfl,rfl⟩
    · rw [hold hc] at he
      exact hx.absent id' op' hc e he hcmd
    -- Only commands of operations called before are in the log.
    obtain ⟨id₁,op₁,hc₁,_,heq⟩ := hx.carried e (List.mem_of_mem_take he) _ hcmd
    have h₁ := congrArg Command.clientID heq
    have h₂ := congrArg Command.seq heq
    simp only [Operation.command_clientID,Operation.command_seq] at h₁ h₂
    exact hnew op₁ (Prod.ext h₁ h₂ ▸ hc₁)
  have hr' : Linear.Event.ret id' res ∈ h := by simpa using hr
  obtain ⟨op₁,hc₁⟩ := hx.wf.called hr'
  rcases hcall hc with hc | ⟨rfl,_⟩
  · exact hold hc ▸ hx.answered id' op' res hc hr'
  · exact absurd hc₁ (hnew op₁)

theorem ret {id : UInt64 × UInt64} {op : Operation} (hc : .call id op ∈ h) (hnr : ∀ res', .ret id res' ∉ h)
    {res : Result} (ha : Answers L (floor id) k id op res) :
    Explains L floor (Function.update point id k) (h ++ [.ret id res]) := by
  have hcall : ∀ {id' op'}, Linear.Event.call id' op' ∈ h ++ [.ret id res] → .call id' op' ∈ h := by
    intro id' op' hc
    simpa using hc
  have hold : ∀ {id' res'}, Linear.Event.ret id' res' ∈ h → Function.update point id k id' = point id' := by
    intro id' res' hr
    have hne : id' ≠ id := fun heq => hnr res' (heq ▸ hr)
    exact Function.update_of_ne hne _ _
  refine ⟨.ret res hx.wf hc hnr,fun id' op' hc' => hx.floor_le id' op' (hcall hc'),fun a b hp => ?_,
    fun e he cmd hcmd => ?_,fun id' op' hc' => hx.absent id' op' (hcall hc'),fun id' op' res' hc' hr => ?_⟩
  · rcases hp.of_snoc with hp | ⟨⟨_,he⟩,_⟩
    · obtain ⟨_,hr⟩ := hp.returned
      exact hold hr ▸ hx.order a b hp
    · cases he
  · obtain ⟨id',op',hc',hrest⟩ := hx.carried e he cmd hcmd
    exact ⟨id',op',List.mem_append_left _ hc',hrest⟩
  have hr' : .ret id' res' ∈ h ∨ (id' = id ∧ res' = res) := by simpa using hr
  rcases hr' with hr' | ⟨rfl,rfl⟩
  · exact hold hr' ▸ hx.answered id' op' res' (hcall hc') hr'
  · rw [Function.update_self,hx.wf.call_unique (hcall hc') hc]
    exact ha

end Explains
end Parallax.Kv
