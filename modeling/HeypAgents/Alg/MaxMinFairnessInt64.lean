import Mathlib.Algebra.Order.Ring.Abs
import HeypAgents.Lib.MachineTrace
import HeypAgents.Alg.MaxMinFairnessFeasible

/-!
# The waterlevel in machine integers

`ComputeWaterlevel` once more, with the `int64_t` assignments, the products and quotients
that `size_t` operands make unsigned, and the 32-bit index of the filter.  Positions and
counts of demands need no care: they are at most the number of the demands.
-/

namespace HeypAgents
namespace MaxMinFairness
namespace Machine

open WaterFilling
open MachineTrace
open HybridQsort (StdPartition)
open PartialSortAllocator (loopCond)

inductive Event where
  | tinyDemandThresh (v : ℤ)
  | delta (v : ℤ)
  | ask (v : ℤ)
  | capacity (v : ℤ)
  | residualCapacity (v : ℤ)
  | waterlevel (v : ℤ)
  | dividend (v : ℤ)
deriving DecidableEq, Repr

section Program

variable (m : Arith)

def fullSortLoop (capacity waterlevel : ℤ) : List ℤ → Traced Event ℤ
  | [] => pure waterlevel
  | nextDemand :: rest => do
      let numUnsatisfied : ℤ := (nextDemand :: rest).length
      let delta ← m.assign .delta (nextDemand - waterlevel)
      let ask ← m.assign .ask (delta * numUnsatisfied)
      if ask ≤ capacity then
        let raised ← m.assign .waterlevel (waterlevel + delta)
        let left ← m.assign .capacity (capacity - ask)
        fullSortLoop left raised rest
      else
        m.assign .waterlevel (waterlevel + capacity.tdiv numUnsatisfied)

def solveFullSort (capacity waterlevel : ℤ) (sortedDemands : List ℤ) : Traced Event ℤ :=
  fullSortLoop m capacity waterlevel (sortedDemands.mergeSort fun a b => decide (a ≤ b))

def askStep (waterlevel : ℤ) (acc : ℤ × ℤ) (d : ℤ) : Traced Event (ℤ × ℤ) := do
  let delta ← m.assign .delta (d - waterlevel)
  let ask ← m.assign .ask (acc.1 + delta)
  pure (ask, d)

def askOfA (waterlevel : ℤ) (A : List ℤ) : Traced Event (ℤ × ℤ) :=
  A.foldlM (askStep m waterlevel) (0, 0)

def loopBody (part : StdPartition ℤ) (s : PartialSortAllocator) :
    Traced Event PartialSortAllocator := do
  let sorted := s.partitioned part
  let p := s.partitionIdx
  let A := (sorted.take (p + 1).toNat).drop s.lowerLimit.toNat
  let acc ← askOfA m s.waterlevel A
  let maxDemandA := acc.2
  let delta ← m.assign .delta (maxDemandA - s.waterlevel)
  let ask ← m.assign .ask (m.addU acc.1 (m.mulU delta (sorted.length - p - 1)))
  if ask ≤ s.residualCapacity then
    let waterlevel ← m.assign .waterlevel maxDemandA
    let residualCapacity ← m.assign .residualCapacity (s.residualCapacity - ask)
    pure { s with
      sortedDemands := sorted
      waterlevel := waterlevel
      residualCapacity := residualCapacity
      lowerLimit := p + 1 }
  else if s.lowerLimit = s.upperLimit then
    pure { s with sortedDemands := sorted, upperLimit := s.lowerLimit - 1 }
  else
    pure { s with sortedDemands := sorted, upperLimit := p }

def divideRemainder (s : PartialSortAllocator) : Traced Event ℤ :=
  let nextUnsatisfied := max s.lowerLimit s.upperLimit
  if nextUnsatisfied < s.sortedDemands.length then do
    Traced.tell (.dividend s.residualCapacity)
    m.assign .waterlevel (m.addU s.waterlevel
      (m.divU s.residualCapacity (s.sortedDemands.length - nextUnsatisfied)))
  else
    pure s.waterlevel

def solvePartialSort (part : StdPartition ℤ) (capacity waterlevel : ℤ) (sortedDemands : List ℤ) :
    Traced Event ℤ :=
  let start := partialSortStart capacity waterlevel sortedDemands
  if start.sortedDemands.isEmpty then pure start.waterlevel
  else Traced.loop loopCond (loopBody m part) start.width start >>= divideRemainder m

def tinyDemandThresh (options : Options) (capacity : ℤ) (demands : List ℤ) : Traced Event ℤ := do
  let share ← m.assign .tinyDemandThresh (capacity.tdiv (max (demands.length : ℤ) 1))
  if options.enableTinyFlowOpt then pure share
  else m.assign .tinyDemandThresh (-1)

def filterStep (thresh : ℤ) (demands : List ℤ) (s : ℕ × TinyFilter) :
    Traced Event (ℕ × TinyFilter) :=
  match demands[s.1]? with
  | none => pure s
  | some demand =>
    if demand ≤ thresh then do
      let capacity ← m.assign .capacity (s.2.capacity - demand)
      let waterlevel ← m.assign .waterlevel (max s.2.waterlevel demand)
      pure (m.uint32 (s.1 + 1), { s.2 with capacity := capacity, waterlevel := waterlevel })
    else
      pure (m.uint32 (s.1 + 1), { s.2 with unfiltered := s.2.unfiltered ++ [demand] })

def filterCond (demands : List ℤ) (s : ℕ × TinyFilter) : Bool := decide (s.1 < demands.length)

def filterTiny (options : Options) (capacity : ℤ) (demands : List ℤ) : Traced Event TinyFilter := do
  let thresh ← tinyDemandThresh m options capacity demands
  let s ← Traced.loop (filterCond demands) (filterStep m thresh demands) demands.length
    (0, { unfiltered := [], capacity := capacity, waterlevel := 0 })
  let left ← m.assign .capacity (m.subU s.2.capacity (m.mulU s.2.waterlevel s.2.unfiltered.length))
  pure { s.2 with capacity := left }

/-- `SingleLinkMaxMinFairnessProblem::ComputeWaterlevel` with its intermediate values. -/
def computeWaterlevel
    (part : StdPartition ℤ) (options : Options) (capacity : ℤ) (demands : List ℤ) :
    Traced Event ℤ := do
  let f ← filterTiny m options capacity demands
  match options.solveMethod with
  | .kFullSort => solveFullSort m f.capacity f.waterlevel f.unfiltered
  | .kPartialSort => solvePartialSort m part f.capacity f.waterlevel f.unfiltered

end Program

section Ideal

open Arith

theorem fullSortLoop_value (capacity waterlevel : ℤ) (pending : List ℤ) :
    (fullSortLoop exact capacity waterlevel pending).value =
      MaxMinFairness.fullSortLoop capacity waterlevel pending := by
  induction pending generalizing capacity waterlevel with
  | nil => rfl
  | cons d rest ih =>
    simp only [fullSortLoop, MaxMinFairness.fullSortLoop, exact_assign_bind_value]
    split_ifs
    · simp only [exact_assign_bind_value, ih]
    · rfl

theorem askOfA_value (waterlevel : ℤ) (A : List ℤ) :
    (askOfA exact waterlevel A).value = PartialSortAllocator.askOfA waterlevel A :=
  Traced.foldlM_value (fun _ _ => rfl) A (0, 0)

theorem loopBody_value (part : StdPartition ℤ) (s : PartialSortAllocator) :
    (loopBody exact part s).value = s.loopBody part := by
  have hsum : ∀ x y u : ℤ, exact.addU x (exact.mulU y u) = x + y * u := fun _ _ _ => rfl
  rw [loopBody, Traced.bind_value, askOfA_value]
  simp only [exact_assign_bind_value, hsum, PartialSortAllocator.loopBody]
  split_ifs <;> rfl

theorem divideRemainder_value (s : PartialSortAllocator) :
    (divideRemainder exact s).value = s.divideRemainder := by
  simp only [divideRemainder, PartialSortAllocator.divideRemainder]
  split_ifs <;> rfl

theorem solvePartialSort_value (part : StdPartition ℤ) (capacity waterlevel : ℤ)
    (sortedDemands : List ℤ) :
    (solvePartialSort exact part capacity waterlevel sortedDemands).value =
      MaxMinFairness.solvePartialSort part capacity waterlevel sortedDemands := by
  simp only [solvePartialSort, MaxMinFairness.solvePartialSort,
    PartialSortAllocator.computeWaterlevel]
  split_ifs
  · rfl
  · rw [Traced.bind_value, divideRemainder_value, Traced.loop_value (loopBody_value part)]

theorem tinyDemandThresh_value (options : Options) (capacity : ℤ) (demands : List ℤ) :
    (tinyDemandThresh exact options capacity demands).value =
      MaxMinFairness.tinyDemandThresh options capacity demands := by
  simp only [tinyDemandThresh, MaxMinFairness.tinyDemandThresh, exact_assign_bind_value]
  split_ifs <;> rfl

theorem filterStep_value {thresh : ℤ} {demands : List ℤ} {i : ℕ} (f : TinyFilter)
    (hi : i < demands.length) :
    (filterStep exact thresh demands (i, f)).value = (i + 1, f.step thresh demands[i]) := by
  simp only [filterStep, List.getElem?_eq_getElem hi, TinyFilter.step]
  split_ifs <;> rfl

theorem filterLoop_value (thresh : ℤ) (demands : List ℤ) (fuel i : ℕ) (f : TinyFilter)
    (hi : i + fuel = demands.length) :
    (Traced.loop (filterCond demands) (filterStep exact thresh demands) fuel (i, f)).value =
      (demands.length, (demands.drop i).foldl (TinyFilter.step thresh) f) := by
  induction fuel generalizing i f with
  | zero =>
    obtain rfl : i = demands.length := hi
    simp [Traced.loop]
  | succ fuel ih =>
    have hlt : i < demands.length := by omega
    have hcond : filterCond demands (i, f) = true := decide_eq_true hlt
    rw [Traced.loop, if_pos hcond, Traced.bind_value, filterStep_value f hlt,
      ih _ _ (by omega), List.drop_eq_getElem_cons hlt, List.foldl_cons]

theorem filterTiny_value (options : Options) (capacity : ℤ) (demands : List ℤ) :
    (filterTiny exact options capacity demands).value =
      MaxMinFairness.filterTiny options capacity demands := by
  simp only [filterTiny, Traced.bind_value, tinyDemandThresh_value]
  rw [filterLoop_value _ demands demands.length 0 _ (Nat.zero_add _)]
  rfl

/-- The exact reading is the model with ideal integers. -/
theorem computeWaterlevel_value (part : StdPartition ℤ) (options : Options) (capacity : ℤ)
    (demands : List ℤ) :
    (computeWaterlevel exact part options capacity demands).value =
      MaxMinFairness.computeWaterlevel part options capacity demands := by
  unfold computeWaterlevel MaxMinFairness.computeWaterlevel
  rw [Traced.bind_value, filterTiny_value]
  cases options.solveMethod with
  | kFullSort => exact fullSortLoop_value _ _ _
  | kPartialSort => exact solvePartialSort_value part _ _ _

end Ideal

section Exactness

open Arith

variable {part : StdPartition ℤ} {n : ℕ} {M capacity level residual : ℤ} {settled pending : List ℤ}

/-- The sizes for which nothing overflows. -/
structure Sizes (n : ℕ) (M capacity : ℤ) : Prop where
  nonneg : 0 ≤ M
  product_lt : n * M < 2 ^ 63
  capacity_lt : capacity < 2 ^ 63

def Within (M d : ℤ) : Prop := 0 ≤ d ∧ d ≤ M

theorem Within.abs_sub_le {d e : ℤ} (hd : Within M d) (he : Within M e) : |d - e| ≤ M :=
  abs_le.mpr ⟨by linarith [hd.1, he.2], by linarith [hd.2, he.1]⟩

namespace Sizes

theorem inRange (h : Sizes n M capacity) {k : ℕ} (hk : k ≤ n) {x : ℤ} (hx : |x| ≤ k * M) :
    InRange x := by
  have hkn : (k : ℤ) * M ≤ n * M := mul_le_mul_of_nonneg_right (by exact_mod_cast hk) h.nonneg
  exact inRange_of_abs_le h.product_lt (hx.trans hkn)

theorem inRange_within (h : Sizes n M capacity) (hn : 1 ≤ n) {d : ℤ} (hd : Within M d) :
    InRange d :=
  h.inRange hn (by rw [Nat.cast_one, one_mul, abs_of_nonneg hd.1]; exact hd.2)

theorem inRange_delta (h : Sizes n M capacity) (hn : 1 ≤ n) {d e : ℤ} (hd : Within M d)
    (he : Within M e) : InRange (d - e) :=
  h.inRange hn (by rw [Nat.cast_one, one_mul]; exact hd.abs_sub_le he)

theorem inRange_of_le_capacity (h : Sizes n M capacity) {x : ℤ} (hx : 0 ≤ x)
    (hcapacity : x ≤ capacity) : InRange x :=
  inRange_of_abs_le h.capacity_lt (by rwa [abs_of_nonneg hx])

end Sizes

theorem residual_le (h : Accounts capacity settled pending level residual)
    (hsettled : 0 ≤ settled.sum) (hlevel : 0 ≤ level) : residual ≤ capacity := by
  have hcharge : 0 ≤ (pending.length : ℤ) * level := by positivity
  linarith [h.balance]

theorem divided_le (h : Accounts capacity settled pending level residual)
    (hsettled : 0 ≤ settled.sum) (hlevel : 0 ≤ level) (hne : pending ≠ []) :
    0 ≤ level + residual.tdiv pending.length ∧ level + residual.tdiv pending.length ≤ capacity := by
  have hlen : (1 : ℤ) ≤ pending.length := by exact_mod_cast List.length_pos_iff.mpr hne
  have hshare : 0 ≤ residual / (pending.length : ℤ) :=
    Int.ediv_nonneg h.residual_nonneg (by linarith)
  rw [Int.tdiv_eq_ediv_of_nonneg h.residual_nonneg]
  refine ⟨by linarith, ?_⟩
  have hone := le_mul_of_one_le_left (show 0 ≤ level + residual / pending.length by linarith) hlen
  linarith [h.divide]

theorem fullSortLoop_wrapped (hsizes : Sizes n M capacity)
    (h : Accounts capacity settled pending level residual) (hsettled : 0 ≤ settled.sum)
    (hlevel : Within M level) (hpending : ∀ d ∈ pending, Within M d) (hlen : pending.length ≤ n) :
    fullSortLoop wrapped residual level pending = fullSortLoop exact residual level pending := by
  induction pending generalizing settled level residual with
  | nil => rfl
  | cons d rest ih =>
    have hn : 1 ≤ n := (Nat.le_add_left 1 _).trans hlen
    have hd : Within M d := hpending d List.mem_cons_self
    have hask : |(d - level) * ((d :: rest).length : ℤ)| ≤ ((d :: rest).length : ℕ) * M := by
      rw [abs_mul, mul_comm, Nat.abs_cast]
      exact mul_le_mul_of_nonneg_left (hd.abs_sub_le hlevel) (by positivity)
    rw [fullSortLoop, fullSortLoop]
    refine assign_bind_congr (int64_of_inRange (hsizes.inRange_delta hn hd hlevel)) ?_
    refine assign_bind_congr (int64_of_inRange (hsizes.inRange hlen hask)) ?_
    split_ifs with hfits
    · have hAsk : (d - level) * ((d :: rest).length : ℤ) =
          [d].sum - [d].length * level + (d - level) * rest.length := by
        simp only [List.length_cons, List.sum_cons, List.sum_nil, List.length_nil]
        push_cast
        ring
      have hnext := h.settle (A := [d]) (B := rest) (x := d) (.refl _) (by rwa [← hAsk])
      rw [← hAsk] at hnext
      have hsettled' : 0 ≤ (settled ++ [d]).sum := by
        rw [List.sum_append, List.sum_singleton]
        exact add_nonneg hsettled hd.1
      have hraised : level + (d - level) = d := by ring
      refine assign_bind_congr (int64_of_inRange ?_) ?_
      · rw [hraised]
        exact hsizes.inRange_within hn hd
      refine assign_bind_congr (int64_of_inRange ?_) ?_
      · exact hsizes.inRange_of_le_capacity hnext.residual_nonneg
          (residual_le hnext hsettled' hd.1)
      rw [hraised]
      exact ih hnext hsettled' hd (fun e he => hpending e (List.mem_cons_of_mem d he))
        ((Nat.le_succ _).trans hlen)
    · obtain ⟨hnonneg, hle⟩ := divided_le h hsettled hlevel.1 (List.cons_ne_nil d rest)
      exact assign_congr (int64_of_inRange (hsizes.inRange_of_le_capacity hnonneg hle))

section PartialSort

variable {U below area above : List ℤ} {s : PartialSortAllocator}

theorem askOfA_wrapped (hsizes : Sizes n M capacity) (hlevel : Within M level) {A : List ℤ}
    (hA : ∀ d ∈ A, Within M d) (hlen : A.length ≤ n) :
    askOfA wrapped level A = askOfA exact level A := by
  -- `k` demands have been summed up
  have hfold : ∀ (A : List ℤ) (acc : ℤ × ℤ) (k : ℕ), (∀ d ∈ A, Within M d) →
      |acc.1| ≤ k * M → k + A.length ≤ n →
      A.foldlM (askStep wrapped level) acc = A.foldlM (askStep exact level) acc := by
    intro A
    induction A with
    | nil => exact fun _ _ _ _ _ => rfl
    | cons d A ih =>
      intro acc k hA hacc hk
      rw [List.length_cons] at hk
      have hd := hA d List.mem_cons_self
      have hsum : |acc.1 + (d - level)| ≤ ((k + 1 : ℕ) : ℤ) * M := by
        refine (abs_add_le _ _).trans ?_
        rw [Nat.cast_succ, add_mul, one_mul]
        exact add_le_add hacc (hd.abs_sub_le hlevel)
      rw [List.foldlM_cons, List.foldlM_cons]
      have hstep : askStep wrapped level acc d = askStep exact level acc d := by
        refine assign_bind_congr (int64_of_inRange (hsizes.inRange_delta (by omega) hd hlevel)) ?_
        exact assign_bind_congr (int64_of_inRange (hsizes.inRange (by omega) hsum)) rfl
      exact Traced.bind_congr hstep
        (ih _ (k + 1) (fun e he => hA e (List.mem_cons_of_mem d he)) hsum (by omega))
  exact hfold A (0, 0) 0 hA (by simp) (by omega)

theorem abs_askFor_le (hlevel : Within M level) {A rest : List ℤ} {v : ℤ}
    (hA : ∀ d ∈ A, Within M d) (hv : Within M v) :
    |askFor level A v rest| ≤ ((A.length + rest.length : ℕ) : ℤ) * M := by
  have hsum : |A.sum - A.length * level| ≤ A.length * M := by
    induction A with
    | nil => simp
    | cons d A ih =>
      have hd := hA d List.mem_cons_self
      have hstep : (d :: A).sum - (d :: A).length * level =
          (d - level) + (A.sum - A.length * level) := by
        rw [List.sum_cons, List.length_cons, Nat.cast_succ]
        ring
      rw [hstep, List.length_cons, Nat.cast_succ, add_mul, one_mul, add_comm (_ * M)]
      exact (abs_add_le _ _).trans (add_le_add (hd.abs_sub_le hlevel)
        (ih fun e he => hA e (List.mem_cons_of_mem d he)))
  have hrest : |(v - level) * rest.length| ≤ rest.length * M := by
    rw [abs_mul, mul_comm, Nat.abs_cast]
    exact mul_le_mul_of_nonneg_left (hv.abs_sub_le hlevel) (by positivity)
  rw [Nat.cast_add, add_mul]
  exact (abs_add_le _ _).trans (add_le_add hsum hrest)

structure Ready (M capacity : ℤ) (U : List ℤ) (s : PartialSortAllocator) : Prop where
  level : Within M s.waterlevel
  inv : ∃ below area above, AccountInv capacity U (U.length - 1) s below area above

theorem Ready.loopBody (part : StdPartition ℤ) (h : Ready M capacity U s)
    (hU : ∀ d ∈ U, Within M d) (hcond : loopCond s = true) :
    Ready M capacity U (s.loopBody part) := by
  obtain ⟨below, area, above, hinv⟩ := h.inv
  refine ⟨?_, hinv.loopBody hcond⟩
  rcases hinv.limits.loopBody_cases part hcond with
    ⟨A, v, B, hAB, hv, -, -, hwater, -⟩ | ⟨area', above', -, -, hwater, -⟩
  · rw [hwater]
    have harea : v ∈ area := hAB.mem_iff.mp (List.mem_append_left B hv)
    exact hU v (hinv.perm.mem_iff.mp (by simp [harea]))
  · rw [hwater]
    exact h.level

theorem loopBody_wrapped (hsizes : Sizes n M capacity) (h : Ready M capacity U s)
    (hU : ∀ d ∈ U, Within M d) (hlen : U.length ≤ n) (hcond : loopCond s = true) :
    loopBody wrapped part s = loopBody exact part s := by
  obtain ⟨below, area, above, hinv⟩ := h.inv
  obtain ⟨as, v, bs, hsplit, has, hperm⟩ := hinv.limits.exists_split part hcond
  obtain ⟨hsorted, hA, hrest⟩ := hinv.limits.cut_eq hcond hsplit has
  have hmove : ((as ++ [v]) ++ (bs ++ above)).Perm (area ++ above) := by
    simpa using hperm.append_right above
  have hU' : (below ++ ((as ++ [v]) ++ (bs ++ above))).Perm U :=
    (hmove.append_left below).trans hinv.perm
  have hbelow : 0 ≤ below.sum :=
    List.sum_nonneg fun d hd => (hU d (hU'.mem_iff.mp (List.mem_append_left _ hd))).1
  have hlower : ∀ d ∈ as ++ [v], Within M d := fun d hd =>
    hU d (hU'.mem_iff.mp (List.mem_append_right _ (List.mem_append_left _ hd)))
  have hv : Within M v := hlower v (by simp)
  have hcount : (as ++ [v]).length + (bs ++ above).length ≤ n := by
    have hlength := hU'.length_eq
    rw [List.length_append, List.length_append] at hlength
    omega
  have hn : 1 ≤ n := by
    simp only [List.length_append, List.length_singleton] at hcount
    omega
  have hask : InRange (askFor s.waterlevel (as ++ [v]) v (bs ++ above)) :=
    hsizes.inRange hcount (abs_askFor_le h.level hlower hv)
  simp only [loopBody, hsorted, hA, hrest]
  refine Traced.bind_congr (askOfA_wrapped hsizes h.level hlower (by omega)) ?_
  rw [askOfA_value, askOfA_concat]
  refine assign_bind_congr (int64_of_inRange (hsizes.inRange_delta hn hv h.level)) ?_
  refine assign_bind_congr (int64_addU_mulU hask) ?_
  split_ifs with hfits hsingle
  · have hnext := hinv.accounts.settle hmove hfits
    have hsettled : 0 ≤ (below ++ (as ++ [v])).sum := by
      rw [List.sum_append]
      exact add_nonneg hbelow (List.sum_nonneg fun d hd => (hlower d hd).1)
    refine assign_bind_congr (int64_of_inRange (hsizes.inRange_within hn hv)) ?_
    refine assign_bind_congr (int64_of_inRange ?_) rfl
    exact hsizes.inRange_of_le_capacity hnext.residual_nonneg (residual_le hnext hsettled hv.1)
  · rfl
  · rfl

theorem divideRemainder_wrapped (hsizes : Sizes n M capacity) (h : Ready M capacity U s)
    (hU : ∀ d ∈ U, Within M d) (hexit : loopCond s = false) :
    divideRemainder wrapped s = divideRemainder exact s := by
  obtain ⟨below, area, above, hinv⟩ := h.inv
  obtain ⟨rfl, hmax, hsize⟩ := hinv.limits.at_exit hexit
  have hbelow : 0 ≤ below.sum :=
    List.sum_nonneg fun d hd => (hU d (hinv.perm.mem_iff.mp (List.mem_append_left _ hd))).1
  have haccounts := hinv.accounts
  rw [List.nil_append] at haccounts
  have hres := hsizes.inRange_of_le_capacity haccounts.residual_nonneg
    (residual_le haccounts hbelow h.level.1)
  simp only [divideRemainder, hmax, hsize]
  split_ifs with hrest
  · have hne : above ≠ [] := by
      rw [← List.length_pos_iff]
      omega
    obtain ⟨hnonneg, hle⟩ := divided_le haccounts hbelow h.level.1 hne
    refine Traced.bind_congr rfl (assign_congr ?_)
    exact int64_addU_divU haccounts.residual_nonneg hres (hsizes.inRange_of_le_capacity hnonneg hle)
  · rfl

theorem Ready.loop_exit (part : StdPartition ℤ) (h : Ready M capacity U s)
    (hU : ∀ d ∈ U, Within M d) :
    Ready M capacity U (While.loop loopCond (PartialSortAllocator.loopBody part) s.width s) ∧
      loopCond (While.loop loopCond (PartialSortAllocator.loopBody part) s.width s) = false :=
  While.loop_spec (C := fun _ => True) (m := PartialSortAllocator.width)
    loopCond (PartialSortAllocator.loopBody part)
    (fun _ hs hcond _ => hs.loopBody part hU hcond)
    (fun _ _ hcond => width_loopBody_lt hcond)
    le_rfl (While.always_of_forall (fun _ => trivial) _ _) h

theorem ready_start (h : Accounts capacity [] U level residual) (hlevel : Within M level) :
    Ready M capacity U (partialSortStart residual level U) :=
  ⟨hlevel, [], U, [], ⟨⟨by simp [partialSortStart], rfl, by simp [partialSortStart]⟩, by simp,
    by simpa [partialSortStart] using h, le_rfl⟩⟩

theorem solvePartialSort_wrapped (hsizes : Sizes n M capacity)
    (h : Accounts capacity [] U level residual) (hlevel : Within M level)
    (hU : ∀ d ∈ U, Within M d) (hlen : U.length ≤ n) :
    solvePartialSort wrapped part residual level U =
      solvePartialSort exact part residual level U := by
  have hstart := ready_start h hlevel
  simp only [solvePartialSort]
  split_ifs with hempty
  · rfl
  · refine Traced.bind_congr ?_ ?_
    · refine Traced.loop_congr (I := Ready M capacity U)
        (fun s hs hcond => loopBody_wrapped hsizes hs hU hlen hcond) (fun s hs hcond => ?_) _ hstart
      rw [loopBody_value]
      exact hs.loopBody part hU hcond
    · obtain ⟨hready, hexit⟩ := hstart.loop_exit part hU
      rw [Traced.loop_value (loopBody_value part)]
      exact divideRemainder_wrapped hsizes hready hU hexit

end PartialSort

section Filter

variable {demands : List ℤ} {thresh : ℤ} {i : ℕ} {f : TinyFilter}

theorem tinyDemandThresh_wrapped (hsizes : Sizes n M capacity) (hcapacity : 0 ≤ capacity)
    (options : Options) (demands : List ℤ) :
    tinyDemandThresh wrapped options capacity demands =
      tinyDemandThresh exact options capacity demands := by
  refine assign_bind_congr (int64_of_inRange ?_) ?_
  · rw [Int.tdiv_eq_ediv_of_nonneg hcapacity]
    exact hsizes.inRange_of_le_capacity (Int.ediv_nonneg hcapacity (by omega))
      (Int.ediv_le_self _ hcapacity)
  · split_ifs
    · rfl
    · exact assign_congr (int64_of_inRange (by norm_num [InRange]))

structure Scanned (thresh capacity : ℤ) (demands : List ℤ) (s : ℕ × TinyFilter) : Prop where
  index_le : s.1 ≤ demands.length
  filter_eq : s.2 = (demands.take s.1).foldl (TinyFilter.step thresh)
    { unfiltered := [], capacity := capacity, waterlevel := 0 }

theorem Scanned.step (h : Scanned thresh capacity demands (i, f)) (hi : i < demands.length) :
    Scanned thresh capacity demands (i + 1, f.step thresh demands[i]) := by
  refine ⟨hi, ?_⟩
  have hf : f = _ := h.filter_eq
  rw [List.take_succ_eq_append_getElem hi, List.foldl_append, ← hf]
  rfl

theorem Scanned.inRange (hsizes : Sizes n M capacity) (h : Scanned thresh capacity demands (i, f))
    (hcapacity : 0 ≤ capacity) (hdemands : ∀ d ∈ demands, Within M d) (hn : 1 ≤ n)
    (hlen : demands.length ≤ n) : InRange f.capacity ∧ InRange f.waterlevel := by
  obtain ⟨tiny, hfiltered⟩ := filtered_foldl thresh capacity (demands.take i)
  have hf : f = _ := h.filter_eq
  rw [← hf] at hfiltered
  have htiny : ∀ d ∈ tiny, Within M d := fun d hd =>
    hdemands d (List.mem_of_mem_take (hfiltered.perm.mem_iff.mp (List.mem_append_left _ hd)))
  have hlength : tiny.length ≤ n := by
    have hcount := hfiltered.perm.length_eq
    rw [List.length_append, List.length_take] at hcount
    omega
  have hsum : tiny.sum ≤ n * M := by
    have hcard := List.sum_le_card_nsmul tiny M fun d hd => (htiny d hd).2
    rw [nsmul_eq_mul] at hcard
    exact hcard.trans (mul_le_mul_of_nonneg_right (by exact_mod_cast hlength) hsizes.nonneg)
  have hnonneg : 0 ≤ tiny.sum := List.sum_nonneg fun d hd => (htiny d hd).1
  have hbalance := hfiltered.capacity
  have hproduct := hsizes.product_lt
  have hlimit := hsizes.capacity_lt
  refine ⟨⟨by omega, by omega⟩, ?_⟩
  rcases hfiltered.level_mem with hzero | hmem
  · rw [hzero]
    exact hsizes.inRange_within hn ⟨le_rfl, hsizes.nonneg⟩
  · exact hsizes.inRange_within hn (htiny _ hmem)

theorem filterStep_wrapped (hsizes : Sizes n M capacity)
    (h : Scanned thresh capacity demands (i, f)) (hi : i < demands.length)
    (hcapacity : 0 ≤ capacity) (hdemands : ∀ d ∈ demands, Within M d)
    (hlen : demands.length ≤ n) (hindex : demands.length < 2 ^ 32) :
    filterStep wrapped thresh demands (i, f) = filterStep exact thresh demands (i, f) := by
  have hnext := (h.step hi).inRange hsizes hcapacity hdemands (by omega) hlen
  have hwrap : wrapped.uint32 (i + 1) = exact.uint32 (i + 1) := Nat.mod_eq_of_lt (by omega)
  simp only [filterStep, List.getElem?_eq_getElem hi, hwrap]
  split_ifs with htiny
  · rw [TinyFilter.step, if_pos htiny] at hnext
    refine assign_bind_congr (int64_of_inRange hnext.1) ?_
    exact assign_bind_congr (int64_of_inRange hnext.2) rfl
  · rfl

theorem filterTiny_wrapped (hsizes : Sizes n M capacity) (hcapacity : 0 ≤ capacity)
    (options : Options) (hdemands : ∀ d ∈ demands, Within M d) (hlen : demands.length ≤ n)
    (hindex : demands.length < 2 ^ 32) :
    filterTiny wrapped options capacity demands = filterTiny exact options capacity demands := by
  obtain ⟨tiny, hfilling⟩ := filterTiny_filling options hcapacity fun d hd => (hdemands d hd).1
  have htiny : 0 ≤ tiny.sum := List.sum_nonneg fun d hd =>
    (hdemands d (hfilling.perm.mem_iff.mp (List.mem_append_left _ hd))).1
  have hleft := hsizes.inRange_of_le_capacity hfilling.residual_nonneg
    (residual_le hfilling.accounts htiny hfilling.level_nonneg)
  refine Traced.bind_congr (tinyDemandThresh_wrapped hsizes hcapacity options demands) ?_
  rw [tinyDemandThresh_value]
  refine Traced.bind_congr ?_ ?_
  · refine Traced.loop_congr
      (I := Scanned (MaxMinFairness.tinyDemandThresh options capacity demands) capacity demands)
      ?_ ?_ _ ⟨Nat.zero_le _, rfl⟩
    · rintro ⟨i, f⟩ hs hcond
      exact filterStep_wrapped hsizes hs (of_decide_eq_true hcond) hcapacity hdemands hlen hindex
    · rintro ⟨i, f⟩ hs hcond
      have hi : i < demands.length := of_decide_eq_true hcond
      rw [filterStep_value f hi]
      exact hs.step hi
  · rw [filterLoop_value _ demands demands.length 0 _ (Nat.zero_add _)]
    exact assign_bind_congr (int64_subU_mulU hleft) rfl

end Filter

end Exactness

section Dividend

open Arith

variable (m : Arith) {part : StdPartition ℤ} {M capacity level residual : ℤ} {U : List ℤ}

def NonnegDividend : Event → Prop
  | .dividend v => 0 ≤ v
  | _ => True

theorem emits_fullSortLoop (capacity waterlevel : ℤ) (pending : List ℤ) :
    Traced.Emits NonnegDividend (fullSortLoop m capacity waterlevel pending) := by
  induction pending generalizing capacity waterlevel with
  | nil => exact Traced.emits_pure _
  | cons d rest ih =>
    simp only [fullSortLoop, Traced.emits_bind, emits_assign, NonnegDividend, true_and]
    split_ifs
    · simp only [Traced.emits_bind, emits_assign, NonnegDividend, true_and]
      exact ih _ _
    · exact (emits_assign m _ _).mpr trivial

theorem emits_loopBody (part : StdPartition ℤ) (s : PartialSortAllocator) :
    Traced.Emits NonnegDividend (loopBody m part s) := by
  have hask : ∀ waterlevel A, Traced.Emits NonnegDividend (askOfA m waterlevel A) :=
    fun waterlevel A => Traced.emits_foldlM (fun _ _ => by simp [askStep, NonnegDividend]) A (0, 0)
  simp only [loopBody, Traced.emits_bind, emits_assign, NonnegDividend, true_and]
  refine ⟨hask _ _, ?_⟩
  split_ifs <;> simp [NonnegDividend]

theorem emits_filterTiny (options : Options) (capacity : ℤ) (demands : List ℤ) :
    Traced.Emits NonnegDividend (filterTiny m options capacity demands) := by
  have hthresh : Traced.Emits NonnegDividend (tinyDemandThresh m options capacity demands) := by
    simp only [tinyDemandThresh, Traced.emits_bind, emits_assign, NonnegDividend, true_and]
    split_ifs <;> simp [NonnegDividend]
  have hstep : ∀ thresh s, Traced.Emits NonnegDividend (filterStep m thresh demands s) := by
    intro thresh s
    unfold filterStep
    split
    · exact Traced.emits_pure _
    · split_ifs <;> simp [NonnegDividend]
  simp only [filterTiny, Traced.emits_bind, emits_assign, NonnegDividend, true_and]
  exact ⟨hthresh, Traced.emits_loop (hstep _) _ _, Traced.emits_pure _⟩

theorem emits_solvePartialSort (h : Accounts capacity [] U level residual)
    (hlevel : Within M level) (hU : ∀ d ∈ U, Within M d) :
    Traced.Emits NonnegDividend (solvePartialSort exact part residual level U) := by
  obtain ⟨hready, hexit⟩ := (ready_start h hlevel).loop_exit part hU
  obtain ⟨below, area, above, hinv⟩ := hready.inv
  simp only [solvePartialSort]
  split_ifs with hempty
  · exact Traced.emits_pure _
  · refine (Traced.emits_bind _ _).mpr ⟨Traced.emits_loop (emits_loopBody exact part) _ _, ?_⟩
    rw [Traced.loop_value (loopBody_value part)]
    simp only [divideRemainder]
    split_ifs
    · refine (Traced.emits_bind _ _).mpr ⟨?_, (emits_assign _ _ _).mpr trivial⟩
      exact (Traced.emits_tell _).mpr hinv.accounts.residual_nonneg
    · exact Traced.emits_pure _

end Dividend

section NoOverflow

open Arith

variable {capacity : ℤ} {demands : List ℤ}

theorem sizes_peak (hcapacity : capacity < 2 ^ 63)
    (hproduct : ∀ d ∈ demands, demands.length * d < 2 ^ 63) :
    Sizes demands.length (peak demands) capacity := by
  refine ⟨peak_nonneg demands, ?_, hcapacity⟩
  rcases peak_mem demands with hzero | hpeak
  · rw [hzero, mul_zero]
    norm_num
  · exact hproduct _ hpeak

theorem computeWaterlevel_wrapped (part : StdPartition ℤ) (options : Options) {n : ℕ} {M : ℤ}
    (hsizes : Sizes n M capacity) (hcapacity : 0 ≤ capacity)
    (hdemands : ∀ d ∈ demands, Within M d) (hlen : demands.length ≤ n)
    (hindex : demands.length < 2 ^ 32) :
    computeWaterlevel wrapped part options capacity demands =
        computeWaterlevel exact part options capacity demands ∧
      Traced.Emits NonnegDividend (computeWaterlevel exact part options capacity demands) := by
  obtain ⟨tiny, hfilling⟩ := filterTiny_filling options hcapacity fun d hd => (hdemands d hd).1
  have htiny : ∀ d ∈ tiny, Within M d := fun d hd =>
    hdemands d (hfilling.perm.mem_iff.mp (List.mem_append_left _ hd))
  have hsum : 0 ≤ tiny.sum := List.sum_nonneg fun d hd => (htiny d hd).1
  have hU : ∀ d ∈ (MaxMinFairness.filterTiny options capacity demands).unfiltered, Within M d :=
    fun d hd => hdemands d (hfilling.perm.mem_iff.mp (List.mem_append_right _ hd))
  have hlevel : Within M (MaxMinFairness.filterTiny options capacity demands).waterlevel := by
    rcases hfilling.level_mem with ⟨-, hzero⟩ | hmem
    · rw [hzero]
      exact ⟨le_rfl, hsizes.nonneg⟩
    · exact htiny _ hmem
  have hcount : (MaxMinFairness.filterTiny options capacity demands).unfiltered.length ≤ n := by
    have hlength := hfilling.perm.length_eq
    rw [List.length_append] at hlength
    omega
  have hrest := hfilling.accounts_pending
  have hsizes' : Sizes n M (capacity - tiny.sum) :=
    ⟨hsizes.nonneg, hsizes.product_lt, by linarith [hsizes.capacity_lt]⟩
  unfold computeWaterlevel
  rw [Traced.emits_bind, filterTiny_value]
  refine ⟨Traced.bind_congr
    (filterTiny_wrapped hsizes hcapacity options hdemands hlen hindex) ?_,
    emits_filterTiny exact options capacity demands, ?_⟩
  · rw [filterTiny_value]
    cases options.solveMethod with
    | kFullSort =>
      have hperm := List.mergeSort_perm
        (MaxMinFairness.filterTiny options capacity demands).unfiltered fun a b => decide (a ≤ b)
      have hsorted : Accounts (capacity - tiny.sum) [] _ _ _ :=
        ⟨by rw [hperm.length_eq]; exact hrest.balance, hrest.residual_nonneg⟩
      exact fullSortLoop_wrapped hsizes' hsorted le_rfl hlevel
        (fun d hd => hU d (hperm.mem_iff.mp hd)) (hperm.length_eq.le.trans hcount)
    | kPartialSort => exact solvePartialSort_wrapped hsizes' hrest hlevel hU hcount
  · cases options.solveMethod with
    | kFullSort => exact emits_fullSortLoop exact _ _ _
    | kPartialSort => exact emits_solvePartialSort hrest hlevel hU

/-- The sizes for which no operation of `ComputeWaterlevel` overflows. -/
structure NoOverflow (capacity : ℤ) (demands : List ℤ) : Prop where
  capacity_nonneg : 0 ≤ capacity
  capacity_lt : capacity < 2 ^ 63
  length_lt : demands.length < 2 ^ 32
  demand_nonneg : ∀ d ∈ demands, 0 ≤ d
  product_lt : ∀ d ∈ demands, demands.length * d < 2 ^ 63

instance : Decidable (NoOverflow capacity demands) :=
  decidable_of_iff (0 ≤ capacity ∧ capacity < 2 ^ 63 ∧ demands.length < 2 ^ 32 ∧
      (∀ d ∈ demands, 0 ≤ d) ∧ ∀ d ∈ demands, demands.length * d < 2 ^ 63)
    ⟨fun ⟨h₁, h₂, h₃, h₄, h₅⟩ => ⟨h₁, h₂, h₃, h₄, h₅⟩,
      fun ⟨h₁, h₂, h₃, h₄, h₅⟩ => ⟨h₁, h₂, h₃, h₄, h₅⟩⟩

theorem NoOverflow.value_eq (h : NoOverflow capacity demands) (part : StdPartition ℤ)
    (options : Options) :
    (computeWaterlevel wrapped part options capacity demands).value =
      MaxMinFairness.computeWaterlevel part options capacity demands := by
  rw [(computeWaterlevel_wrapped part options (sizes_peak h.capacity_lt h.product_lt)
    h.capacity_nonneg (fun d hd => ⟨h.demand_nonneg d hd, le_peak hd⟩) le_rfl h.length_lt).1]
  exact computeWaterlevel_value part options capacity demands

/--
The machine assigns the ideal values, in every iteration of every loop, and divides no
negative residual.
-/
theorem computeWaterlevel_no_overflow (part : StdPartition ℤ) (options : Options) (capacity : ℤ)
    (hcapacity : 0 ≤ capacity ∧ capacity ≤ 2 ^ 63 - 1) (demands : List ℤ)
    (hlen : demands.length < 2 ^ 32) (hdemands : ∀ d ∈ demands, 0 ≤ d ∧ d ≤ 2 ^ 63 - 1)
    (hproduct : ∀ d ∈ demands, demands.length * d ≤ 2 ^ 63 - 1) :
    computeWaterlevel wrapped part options capacity demands =
        computeWaterlevel exact part options capacity demands ∧
      (computeWaterlevel exact part options capacity demands).value =
        MaxMinFairness.computeWaterlevel part options capacity demands ∧
      ∀ v, Event.dividend v ∈ (computeWaterlevel wrapped part options capacity demands).log →
        0 ≤ v := by
  have hsizes : Sizes demands.length (peak demands) capacity :=
    sizes_peak (by omega) fun d hd => by
      have := hproduct d hd
      omega
  obtain ⟨hrun, hemits⟩ := computeWaterlevel_wrapped part options hsizes hcapacity.1
    (fun d hd => ⟨(hdemands d hd).1, le_peak hd⟩) le_rfl hlen
  refine ⟨hrun, computeWaterlevel_value part options capacity demands, ?_⟩
  rw [hrun]
  exact fun v hv => hemits _ hv

/-- One demand is tiny, and the solver divides what it leaves between the other two. -/
theorem computeWaterlevel_no_overflow_max :
    (computeWaterlevel wrapped .stable {} (2 ^ 61) [2 ^ 61, 2 ^ 60, 3]).value = 2 ^ 60 - 2 := by
  have h := computeWaterlevel_no_overflow .stable {} (2 ^ 61) (by norm_num) [2 ^ 61, 2 ^ 60, 3]
    (by norm_num) (by norm_num) (by norm_num)
  rw [h.1, h.2.1]
  decide +kernel

end NoOverflow

end Machine
end MaxMinFairness
end HeypAgents
