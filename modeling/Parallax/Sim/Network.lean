import Parallax.Sim.Loop

/-! sim/network.go: the simulated network. What becomes of a message is decided when it is sent. The generator of a run is
a stream of numbers, consumed from the front. -/
namespace Parallax.Sim
open Loop (VirtualTime)

/-- A float64, as far as it is added and compared: zeros have no sign. -/
inductive Float64 where
  | nan
  | inf (neg : Bool)
  | fin (q : Rat)
  deriving DecidableEq, Repr

namespace Float64

def pow2 (e : Int) : Rat := if 0 ≤ e then mkRat (1 <<< e.toNat : Nat) 1 else mkRat 1 (1 <<< (-e).toNat)

/-- The distance of the float64s around `q ≠ 0`. -/
def ulp (q : Rat) : Rat :=
  let e : Int := q.num.natAbs.log2 - q.den.log2
  let e := if pow2 e ≤ q.abs then e else e - 1
  pow2 (max (e - 52) (-1074))

/-- The nearest float64, an even multiple of `ulp` if there are two. -/
def round (q : Rat) : Float64 :=
  if q = 0 then .fin 0
  else
    let k := q / ulp q
    let r := k - k.floor
    let n := if r < mkRat 1 2 then k.floor else if mkRat 1 2 < r then k.floor + 1 else k.floor + k.floor % 2
    let v := n * ulp q
    if pow2 1024 ≤ v.abs then .inf (v < 0) else .fin v

def add : Float64 → Float64 → Float64
  | .nan, _ | _, .nan => .nan
  | .inf a, .inf b => if a = b then .inf a else .nan
  | .inf a, .fin _ | .fin _, .inf a => .inf a
  | .fin a, .fin b => round (a + b)

/-- NaN is neither less nor greater than anything. -/
def lt : Float64 → Float64 → Bool
  | .nan, _ | _, .nan => false
  | .inf a, .inf b => a && !b
  | .inf a, .fin _ => a
  | .fin _, .inf b => !b
  | .fin a, .fin b => a < b

end Float64

/-- The stream behind a generator. -/
abbrev Rand := Nat → Nat

/-- The generator of network, clients and faults, with whether a draw has panicked. -/
structure Rng where
  stream : Rand
  panicked : Bool := false

namespace Rng

def next (rng : Rng) : Rng := { rng with stream := fun i => rng.stream (i + 1) }

def float64 (rng : Rng) : Float64 × Rng := (.fin (mkRat (Int.ofNat (rng.stream 0 % 1 <<< 53)) (1 <<< 53)),rng.next)

/-- `Intn` and `Int63n`. There has to be something to draw from. -/
def intn (rng : Rng) (n : Int) : Nat × Rng :=
  if n ≤ 0 then (0,{ rng with panicked := true }) else (rng.stream 0 % n.toNat,rng.next)

/-- A time in `[lo,hi]`. The number of times is an int64. -/
def uniform (rng : Rng) (lo hi : VirtualTime) : VirtualTime × Rng :=
  let (k,rng) := rng.intn ((hi - lo + 1).bmod (1 <<< 64))
  (lo + k,rng)

/-- `Perm`. -/
def perm (rng : Rng) (n : Nat) : List Nat × Rng :=
  (List.range n).foldl (fun x i =>
    let (j,rng) := x.2.intn (i + 1 : Nat)
    ((x.1 ++ [x.1.getD j 0]).set j i,rng)) ([],rng)

theorem intn_panicked (rng : Rng) {n : Int} (h : 0 < n) : (rng.intn n).2.panicked = rng.panicked := by
  unfold intn
  rw [if_neg (Int.not_le.mpr h)]
  rfl

theorem uniform_panicked (rng : Rng) {lo hi : Int} (h : lo < hi) (hspan : hi - lo < 9223372036854775807) :
    (rng.uniform lo hi).2.panicked = rng.panicked := by
  refine rng.intn_panicked ?_
  rw [Int.bmod_eq_of_le (by omega) (by omega)]
  omega

theorem perm_panicked (rng : Rng) (n : Nat) : (rng.perm n).2.panicked = rng.panicked := by
  unfold perm
  induction n with
  | zero => rfl
  | succ n ih =>
    rw [List.range_succ,List.foldl_append]
    exact (intn_panicked _ (Int.natCast_succ_pos n)).trans ih

end Rng

structure NetworkConfig where
  delayMin : VirtualTime
  delayMax : VirtualTime
  dropRate : Float64 := .fin 0
  dupRate : Float64 := .fin 0
  deriving DecidableEq, Repr

structure Verdict where
  drop : Bool := false
  duplicate : Bool := false
  extraDelay : VirtualTime := 0
  deriving DecidableEq, Repr

/-- The verdict on a message from one node to another. A hook may count: the first number is that of its calls so far. -/
abbrev MessageHook := Nat → Nat → Nat → Message → Verdict

/-- `partition` gives each node its group, 0 if it is in none. -/
structure Network where
  cfg : NetworkConfig
  partition : Option (Nat → Nat) := none
  hook : Option MessageHook := none
  hooked : Nat := 0

structure Delivery where
  deliver : Bool := false
  delay : VirtualTime := 0
  duplicate : Bool := false
  dupDelay : VirtualTime := 0
  deriving DecidableEq, Repr

namespace Network
variable (n : Network)

def connected (src dst : Nat) : Bool :=
  match n.partition with
  | none => true
  | some p => p src = p dst

/-- A node in several groups is in the last. -/
def setPartition (groups : List (List Nat)) : Network :=
  if groups.length = 0 then { n with partition := none }
  else
    let p := groups.zipIdx.foldl (fun p g => g.1.foldl (fun p id => Function.update p id (g.2 + 1)) p) fun _ => 0
    { n with partition := some p }

def heal : Network := { n with partition := none }

def drawDelay (rng : Rng) : VirtualTime × Rng :=
  if n.cfg.delayMax ≤ n.cfg.delayMin then (n.cfg.delayMin,rng) else rng.uniform n.cfg.delayMin n.cfg.delayMax

/-- Whether an event of this rate happens. -/
def chance (rate : Float64) (rng : Rng) : Bool × Rng :=
  if Float64.lt (.fin 0) rate then
    let (x,rng) := rng.float64
    (x.lt rate,rng)
  else (false,rng)

/-- What the hook makes of a delivery. -/
def Verdict.adjust (v : Verdict) (d : Delivery) : Delivery :=
  let d := if v.drop then { d with deliver := false, duplicate := false } else d
  -- A forced duplicate has the delay of the primary.
  let d := if v.duplicate && !d.duplicate then { d with duplicate := true, dupDelay := d.delay } else d
  let d := { d with delay := d.delay + v.extraDelay }
  if d.duplicate then { d with dupDelay := d.dupDelay + v.extraDelay } else d

def route (rng : Rng) (src dst : Nat) (m : Message) : Delivery × Network × Rng :=
  if !n.connected src dst then ({},n,rng)
  else
    let (drop,rng) := chance n.cfg.dropRate rng
    let (delay,rng) := n.drawDelay rng
    let (duplicate,rng) := chance n.cfg.dupRate rng
    let (dupDelay,rng) := if duplicate then n.drawDelay rng else (0,rng)
    let d : Delivery := { deliver := !drop, delay, duplicate, dupDelay }
    match n.hook with
    | none => (d,n,rng)
    | some hook => (Verdict.adjust (hook n.hooked src dst m) d,{ n with hooked := n.hooked + 1 },rng)

/-- Routing counts the calls of the hook and changes nothing else. -/
theorem route_network (rng : Rng) (src dst : Nat) (m : Message) :
    ∃ k, (n.route rng src dst m).2.1 = { n with hooked := k } := by
  unfold route
  split
  · exact ⟨n.hooked,rfl⟩
  simp only
  split
  · exact ⟨n.hooked,rfl⟩
  · exact ⟨n.hooked + 1,rfl⟩

theorem setPartition_cfg (groups : List (List Nat)) : (n.setPartition groups).cfg = n.cfg := by
  unfold setPartition
  split <;> rfl

/-- The delays are few enough for an int64. -/
def Fits : Prop := n.cfg.delayMax - n.cfg.delayMin < 9223372036854775807

variable {n} in
theorem Fits.drawDelay (h : n.Fits) (rng : Rng) : (n.drawDelay rng).2.panicked = rng.panicked := by
  unfold Network.drawDelay
  split
  · rfl
  · rename_i hlt
    exact rng.uniform_panicked (Int.not_le.mp hlt) h

private theorem chance_panicked (rate : Float64) (rng : Rng) : (chance rate rng).2.panicked = rng.panicked := by
  unfold chance
  split <;> rfl

variable {n} in
theorem Fits.route (h : n.Fits) (rng : Rng) (src dst : Nat) (m : Message) :
    (n.route rng src dst m).2.2.panicked = rng.panicked := by
  have hdup : ∀ (b : Bool) (rng : Rng), (if b then n.drawDelay rng else (0,rng)).2.panicked = rng.panicked := by
    intro b rng
    cases b with
    | true => exact h.drawDelay rng
    | false => rfl
  unfold Network.route
  split
  · rfl
  have hall : (if (chance n.cfg.dupRate (n.drawDelay (chance n.cfg.dropRate rng).2).2).1
      then n.drawDelay (chance n.cfg.dupRate (n.drawDelay (chance n.cfg.dropRate rng).2).2).2
      else (0,(chance n.cfg.dupRate (n.drawDelay (chance n.cfg.dropRate rng).2).2).2)).2.panicked = rng.panicked := by
    rw [hdup,chance_panicked,h.drawDelay,chance_panicked]
  dsimp only
  split <;> exact hall

/-- Neither the configuration nor the hook asks for a delay below zero. -/
structure Paced : Prop where
  delay : 0 ≤ n.cfg.delayMin
  hook : ∀ hook, n.hook = some hook → ∀ j src dst m, 0 ≤ (hook j src dst m).extraDelay

theorem Paced.setPartition {n : Network} (h : n.Paced) (groups : List (List Nat)) : (n.setPartition groups).Paced := by
  unfold Network.setPartition
  split <;> exact ⟨h.delay,h.hook⟩

variable {n} (h : n.Paced)
include h

theorem Paced.drawDelay (rng : Rng) : 0 ≤ (n.drawDelay rng).1 := by
  unfold Network.drawDelay
  split
  · exact h.delay
  · exact Int.add_nonneg h.delay (Int.natCast_nonneg _)

omit h in
private theorem adjust_delay {v : Verdict} (hv : 0 ≤ v.extraDelay) {d : Delivery} (hd : 0 ≤ d.delay ∧ 0 ≤ d.dupDelay) :
    0 ≤ (Verdict.adjust v d).delay ∧ 0 ≤ (Verdict.adjust v d).dupDelay := by
  unfold Verdict.adjust
  dsimp only
  have hsum := Int.add_nonneg hd.1 hv
  have hsum' := Int.add_nonneg hd.2 hv
  split_ifs <;> exact ⟨by assumption,by first | assumption | exact hd.1 | exact hd.2⟩

theorem Paced.route (rng : Rng) (src dst : Nat) (m : Message) :
    0 ≤ (n.route rng src dst m).1.delay ∧ 0 ≤ (n.route rng src dst m).1.dupDelay := by
  have hdup : ∀ (b : Bool) (rng : Rng), 0 ≤ (if b then n.drawDelay rng else (0,rng)).1 := by
    intro b rng
    cases b with
    | true => exact h.drawDelay rng
    | false => exact Int.le_refl 0
  unfold Network.route
  split
  · exact ⟨Int.le_refl 0,Int.le_refl 0⟩
  dsimp only
  split
  · exact ⟨h.drawDelay _,hdup _ _⟩
  · rename_i hook hhook
    exact adjust_delay (h.hook hook hhook _ _ _ _) ⟨h.drawDelay _,hdup _ _⟩

end Network
end Parallax.Sim
