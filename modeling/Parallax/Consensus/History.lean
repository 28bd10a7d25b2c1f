import Mathlib.Data.Finset.Basic
import Mathlib.Data.List.Infix
import Mathlib.Logic.Function.Basic

/-! History of a leader-based replication protocol: the log each term's leader wrote, the
elections in the order they happened, ballots with the voter's log, acknowledgements and
commit points. The operations are the only ways the protocol changes a history. -/
namespace Parallax.Consensus

/-- Quorums that pairwise meet; `Solo` marks a cluster whose only voter is the candidate. -/
structure Quorums (ν : Type) where
  IsQuorum : Finset ν → Prop
  Solo : Prop
  inter : ∀ {Q R}, IsQuorum Q → IsQuorum R → ∃ v, v ∈ Q ∧ v ∈ R

/-- A granted vote: the candidate, the voter's log, and the terms elected by then. -/
structure Ballot (ν ε : Type) where
  cand : ν
  log : List ε
  seen : List Nat

structure Election (ν : Type) where
  term : Nat
  leader : ν
  voters : Finset ν

/-- `elections` is newest first; `com t` is the commit index reached by the leader of `t`
on an entry of its own term. -/
structure History (ν ε : Type) where
  lead : Nat → List ε
  elections : List (Election ν)
  log : ν → List ε
  ack : ν → Nat → Nat
  ballot : ν → Nat → Option (Ballot ν ε)
  cand : ν → Nat → Option (List ε)
  com : Nat → Nat

variable {ν ε : Type}

def lastTerm (τ : ε → Nat) (l : List ε) : Nat := (l.getLast?.map τ).getD 0

/-- A log ending at `(lasti, term)` is at least as up to date as `l`. -/
def UpToDate (τ : ε → Nat) (lasti term : Nat) (l : List ε) : Prop :=
  lastTerm τ l < term ∨ (term = lastTerm τ l ∧ l.length ≤ lasti)

namespace History

/-- The history before anything happened. -/
def empty : History ν ε :=
  { lead := fun _ => [], elections := [], log := fun _ => [], ack := fun _ _ => 0
    ballot := fun _ _ => none, cand := fun _ _ => none, com := fun _ => 0 }

def terms (els : List (Election ν)) : List Nat := els.map Election.term

/-- Each entry sits behind the same prefix as in the log its term's leader wrote. -/
def Coherent (τ : ε → Nat) (H : History ν ε) (l : List ε) : Prop :=
  ∀ p e, p ++ [e] <+: l → p ++ [e] <+: H.lead (τ e)

/-- `t` was elected and a quorum acknowledged its log through an entry of term `t` at `i`. -/
def Committable (qs : Quorums ν) (τ : ε → Nat) (H : History ν ε) (t i : Nat) : Prop :=
  t ∈ terms H.elections ∧
  (∃ p e, p ++ [e] <+: H.lead t ∧ p.length + 1 = i ∧ τ e = t) ∧
  ∃ Q, qs.IsQuorum Q ∧ ∀ q ∈ Q, i ≤ H.ack q t

/-- How the election `el` was won, after the elections `older`: every voter's log is the
winner's own, or no more up to date than the winner's. -/
def WonBy (qs : Quorums ν) (τ : ε → Nat) (H : History ν ε) (el : Election ν)
    (older : List (Election ν)) : Prop :=
  el.term ∉ terms older ∧ qs.IsQuorum el.voters ∧
  ∃ base e₀, τ e₀ = el.term ∧ base ++ [e₀] <+: H.lead el.term ∧
    ∀ q ∈ el.voters, ∃ b, H.ballot q el.term = some b ∧ b.cand = el.leader ∧
      (∀ s ∈ b.seen, s ∈ terms older) ∧
      (b.log = base ∨ (UpToDate τ base.length (lastTerm τ base) b.log ∧
        ∀ e ∈ base, τ e < el.term ∧ τ e ∈ terms older))

def Won (qs : Quorums ν) (τ : ε → Nat) (H : History ν ε) : List (Election ν) → Prop
  | [] => True
  | el :: older => H.WonBy qs τ el older ∧ H.Won qs τ older

/-- The protocol invariant. `ack_log` and `ballot_log` say what a node that acknowledged a
prefix still holds: the prefix, unless some later leader's log lacks it. -/
structure Inv (qs : Quorums ν) (τ : ε → Nat) (H : History ν ε) : Prop where
  lead_zero : H.lead 0 = []
  lead_coh : ∀ t, H.Coherent τ (H.lead t)
  lead_le : ∀ t, ∀ e ∈ H.lead t, τ e ≤ t
  lead_sorted : ∀ t, (H.lead t).Pairwise (fun a b => τ a ≤ τ b)
  lead_elected : ¬ qs.Solo → ∀ t, H.lead t ≠ [] → t ∈ terms H.elections
  log_coh : ∀ q, H.Coherent τ (H.log q)
  ack_le : ∀ q t, H.ack q t ≤ (H.lead t).length
  ack_log : ∀ q t i, i ≤ H.ack q t →
    (∀ s ∈ terms H.elections, t < s → (H.lead t).take i <+: H.lead s) →
    (H.lead t).take i <+: H.log q
  ballot_cand : ∀ q t b, H.ballot q t = some b →
    ∃ l, H.cand b.cand t = some l ∧ UpToDate τ l.length (lastTerm τ l) b.log
  ballot_coh : ∀ q t b, H.ballot q t = some b → H.Coherent τ b.log
  ballot_seen : ∀ q t b, H.ballot q t = some b → ∀ s ∈ b.seen, s ∈ terms H.elections
  ballot_log : ∀ q t b, H.ballot q t = some b → ∀ s < t, ∀ i ≤ H.ack q s,
    (∀ s' ∈ b.seen, s < s' → (H.lead s).take i <+: H.lead s') → (H.lead s).take i <+: b.log
  /-- A candidate whose log already holds an entry of its own or a later term cannot win. -/
  doomed : ¬ qs.Solo → ∀ c t l, H.cand c t = some l → ∀ e ∈ l, t ≤ τ e →
    ∃ Q, qs.IsQuorum Q ∧ ∀ v ∈ Q, H.ballot v (τ e) ≠ none ∧
      ∀ b, H.ballot v t = some b → b.cand ≠ c
  won : H.Won qs τ H.elections
  com_ok : ∀ t, H.com t ≠ 0 → H.Committable qs τ t (H.com t)

/-- What every operation preserves: nothing recorded is ever taken back. -/
structure Ext (H H' : History ν ε) : Prop where
  lead : ∀ t, H.lead t <+: H'.lead t
  elections : H.elections <:+ H'.elections
  ballot : ∀ q t b, H.ballot q t = some b → H'.ballot q t = some b
  cand : ∀ c t l, H.cand c t = some l → H'.cand c t = some l
  ack : ∀ q t, H.ack q t ≤ H'.ack q t
  com : ∀ t, H.com t ≤ H'.com t

namespace Ext
variable {H H' H'' : History ν ε}

theorem refl (H : History ν ε) : Ext H H :=
  ⟨fun _ => List.prefix_rfl, List.suffix_rfl, fun _ _ _ h => h, fun _ _ _ h => h,
    fun _ _ => le_rfl, fun _ => le_rfl⟩

theorem trans (h : Ext H H') (h' : Ext H' H'') : Ext H H'' :=
  ⟨fun t => (h.lead t).trans (h'.lead t), h.elections.trans h'.elections,
    fun q t b hb => h'.ballot q t b (h.ballot q t b hb),
    fun c t l hl => h'.cand c t l (h.cand c t l hl),
    fun q t => (h.ack q t).trans (h'.ack q t), fun t => (h.com t).trans (h'.com t)⟩

theorem mem_terms (h : Ext H H') {t : Nat} (ht : t ∈ terms H.elections) :
    t ∈ terms H'.elections := by
  obtain ⟨el,hel,rfl⟩ := List.mem_map.mp ht
  exact List.mem_map_of_mem (h.elections.subset hel)

theorem take_lead (h : Ext H H') {t i : Nat} (hi : i ≤ (H.lead t).length) :
    (H'.lead t).take i = (H.lead t).take i := by
  obtain ⟨s,hs⟩ := h.lead t
  rw [← hs,List.take_append_of_le_length hi]

theorem coherent {τ : ε → Nat} (h : Ext H H') {l : List ε} (hl : H.Coherent τ l) :
    H'.Coherent τ l :=
  fun p e hp => (hl p e hp).trans (h.lead _)

end Ext

theorem Coherent.of_isPrefix {τ : ε → Nat} {H : History ν ε} {l m : List ε}
    (h : H.Coherent τ l) (hm : m <+: l) : H.Coherent τ m :=
  fun p e hp => h p e (hp.trans hm)

end History
end Parallax.Consensus
