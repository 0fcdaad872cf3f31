-- The routing table of `net.c`: 16 routes that are only ever added.
import MvhKernel.Net
import Mathlib.Data.List.MinMax
import Mathlib.Data.Prod.Lex
import Mathlib.Data.List.FinRange

namespace mvh.net

abbrev NET_ROUTE_MAX : Nat := 16

structure Route where
  valid : Bool
  network : UInt32
  netmask : UInt32
  gateway : UInt32
  metric : UInt32
  interface_id : UInt32
  deriving DecidableEq

abbrev Routes := Fin NET_ROUTE_MAX → Route

/-! ## The functions of the table -/

def net_route_init (routes : Routes) : Routes := fun index => { routes index with valid := false }

def route_add_loop (routes : Routes) (route : Route) : List (Fin NET_ROUTE_MAX) → Routes × Int
  | [] => (routes, -1)
  | index :: rest =>
    if (routes index).valid = false then (Function.update routes index route, 0)
    else route_add_loop routes route rest

def net_route_add (routes : Routes) (network netmask gateway metric interface_id : UInt32) : Routes × Int :=
  if network &&& ~~~ netmask ≠ 0 then (routes, -1)
  else
    route_add_loop routes ⟨true, network, netmask, gateway, metric, interface_id⟩
      (List.finRange NET_ROUTE_MAX)

def mask_bits_loop : Nat → UInt32 → UInt32 → UInt32
  | 0, _, count => count
  | fuel + 1, mask, count => if mask ≠ 0 then mask_bits_loop fuel (mask >>> 1) (count + (mask &&& 1)) else count

def mask_bits (mask : UInt32) : UInt32 := mask_bits_loop 32 mask 0

def route_lookup_loop (routes : Routes) (destination : UInt32) :
    List (Fin NET_ROUTE_MAX) → Option (Fin NET_ROUTE_MAX) → UInt32 → Option (Fin NET_ROUTE_MAX)
  | [], best, _ => best
  | index :: rest, best, best_bits =>
    if (routes index).valid = false ∨ destination &&& (routes index).netmask ≠ (routes index).network then
      route_lookup_loop routes destination rest best best_bits
    else
      let bits := mask_bits (routes index).netmask
      match best with
      | none => route_lookup_loop routes destination rest (some index) bits
      | some place =>
        if bits > best_bits ∨ (bits = best_bits ∧ (routes index).metric < (routes place).metric) then
          route_lookup_loop routes destination rest (some index) bits
        else route_lookup_loop routes destination rest best best_bits

/-- The result `none` is -1. -/
def net_route_lookup (routes : Routes) (destination : UInt32) (route : Bool) : Option Route :=
  match route_lookup_loop routes destination (List.finRange NET_ROUTE_MAX) none 0 with
  | none => none
  | some best => if route = false then none else some (routes best)

/-! ## Masks -/

def maskLength (mask : UInt32) : Nat := (List.range 32).countP fun i => mask.toNat.testBit i

theorem toNat_mask_bits_loop (n : Nat) (mask c : UInt32) (hm : mask.toNat < 2 ^ n)
    (hc : c.toNat + n < 2 ^ 32) :
    (mask_bits_loop n mask c).toNat = c.toNat + (List.range n).countP fun i => mask.toNat.testBit i := by
  induction n generalizing mask c with
  | zero => rfl
  | succ n ih =>
    rw [mask_bits_loop]
    by_cases hz : mask ≠ 0
    · have hh : (mask >>> 1).toNat = mask.toNat / 2 := by
        rw [UInt32.toNat_shiftRight]
        exact Nat.shiftRight_eq_div_pow _ 1
      have hl : (mask &&& 1).toNat = mask.toNat % 2 := by simp
      have hn : (c + (mask &&& 1)).toNat = c.toNat + mask.toNat % 2 := by grind
      rw [if_pos hz, ih _ _ (by omega) (by omega), hh, hn, List.range_succ_eq_map, List.countP_cons,
        List.countP_map, Nat.testBit_zero]
      have hr : ((fun i => mask.toNat.testBit i) ∘ Nat.succ) = fun i => (mask.toNat / 2).testBit i := by
        grind
      grind
    · rw [if_neg hz, not_not.mp hz]
      simp

theorem toNat_mask_bits (mask : UInt32) : (mask_bits mask).toNat = maskLength mask := by
  unfold mask_bits maskLength
  rw [toNat_mask_bits_loop 32 mask 0 mask.toNat_lt (by decide), UInt32.toNat_zero, Nat.zero_add]

def Contiguous (mask : UInt32) : Prop := ∃ k ≤ 32, mask.toNat = 2 ^ 32 - 2 ^ (32 - k)

theorem testBit_contiguous {k : Nat} (i : Nat) :
    (2 ^ 32 - 2 ^ (32 - k)).testBit i = (decide (i < 32) && decide (32 - k ≤ i)) := by
  have hp := Nat.two_pow_pos (32 - k)
  have hlt : 2 ^ (32 - k) - 1 < 2 ^ 32 := by
    have := Nat.pow_le_pow_right (n := 2) (by decide) (Nat.sub_le 32 k)
    omega
  have hb := Nat.testBit_two_pow_sub_succ hlt i
  grind

theorem maskLength_contiguous {mask : UInt32} {k : Nat} (hk : k ≤ 32) (h : mask.toNat = 2 ^ 32 - 2 ^ (32 - k)) :
    maskLength mask = k := by
  have hc : ∀ k ≤ 32, ((List.range 32).countP fun i => decide (i < 32) && decide (32 - k ≤ i)) = k := by
    decide
  grind [testBit_contiguous, maskLength]

theorem and_contiguous (x k : Nat) (hx : x < 2 ^ 32) :
    x &&& (2 ^ 32 - 2 ^ (32 - k)) = x / 2 ^ (32 - k) * 2 ^ (32 - k) := by
  apply Nat.eq_of_testBit_eq
  intro i
  rw [Nat.testBit_and, testBit_contiguous, Nat.testBit_mul_two_pow, Nat.testBit_div_two_pow]
  by_cases hi : 32 - k ≤ i
  · have hp : i - (32 - k) + (32 - k) = i := Nat.sub_add_cancel hi
    by_cases hl : i < 32
    · simp [hi, hl, hp]
    · have hn : x.testBit i = false :=
        Nat.testBit_lt_two_pow (Nat.lt_of_lt_of_le hx (Nat.pow_le_pow_right (by decide) (Nat.not_lt.mp hl)))
      simp [hi, hl, hp, hn]
  · simp [hi]

/-! ## What the table holds -/

/-- The arguments of `net_route_add`. -/
structure RouteArguments where
  network : UInt32
  netmask : UInt32
  gateway : UInt32
  metric : UInt32
  interface_id : UInt32

def RouteArguments.Proper (a : RouteArguments) : Prop := a.network &&& ~~~ a.netmask = 0

instance (a : RouteArguments) : Decidable a.Proper := inferInstanceAs (Decidable (_ = _))

def RouteArguments.route (a : RouteArguments) : Route :=
  ⟨true, a.network, a.netmask, a.gateway, a.metric, a.interface_id⟩

def Routes.add (routes : Routes) (a : RouteArguments) : Routes × Int :=
  net_route_add routes a.network a.netmask a.gateway a.metric a.interface_id

def Routes.addAll (routes : Routes) (adds : List RouteArguments) : Routes :=
  adds.foldl (fun routes a => (routes.add a).1) routes

def accepted (adds : List RouteArguments) : List Route :=
  (adds.filter fun a => a.Proper).map RouteArguments.route

def stored (adds : List RouteArguments) : List Route := (accepted adds).take NET_ROUTE_MAX

def Routes.content (routes : Routes) (index : Fin NET_ROUTE_MAX) : Option Route :=
  if (routes index).valid then some (routes index) else none

theorem Routes.content_update (r : Routes) (place : Fin NET_ROUTE_MAX) {route : Route} (hv : route.valid = true)
    (index : Fin NET_ROUTE_MAX) :
    Routes.content (Function.update r place route) index =
      if index = place then some route else r.content index := by
  unfold Routes.content
  grind

/-- The list stands at the beginning of the table, and the rest is free. -/
structure Holds (routes : Routes) (l : List Route) : Prop where
  length : l.length ≤ NET_ROUTE_MAX
  content : ∀ index : Fin NET_ROUTE_MAX, routes.content index = l[index.val]?

theorem filterMap_range_getElem? {α : Type} (l : List α) {n : Nat} (h : l.length ≤ n) :
    (List.range n).filterMap (fun i => l[i]?) = l := by
  induction l generalizing n with
  | nil => simp
  | cons a l ih =>
    obtain ⟨n, rfl⟩ : ∃ m, n = m + 1 := ⟨n - 1, by rw [List.length_cons] at h; omega⟩
    have hr := ih (n := n) (by rw [List.length_cons] at h; omega)
    simpa [List.range_succ_eq_map, List.filterMap_cons_some, List.filterMap_map] using congrArg (a :: ·) hr

theorem Holds.filterMap {r : Routes} {l : List Route} (h : Holds r l) :
    (List.finRange NET_ROUTE_MAX).filterMap r.content = l := by
  have hc : r.content = (fun i => l[i]?) ∘ Fin.val := funext h.content
  rw [hc, ← List.filterMap_map, List.map_coe_finRange_eq_range, filterMap_range_getElem? l h.length]

theorem net_route_init_holds (r : Routes) : Holds (net_route_init r) [] where
  length := Nat.zero_le _
  content := fun _ => rfl

theorem route_add_loop_eq (r : Routes) (route : Route) (places : List (Fin NET_ROUTE_MAX)) :
    route_add_loop r route places =
      match places.find? fun index => !(r index).valid with
      | none => (r, -1)
      | some index => (Function.update r index route, 0) := by
  induction places with
  | nil => rfl
  | cons index rest ih =>
    rw [route_add_loop]
    grind

theorem Holds.valid_iff {r : Routes} {l : List Route} (h : Holds r l) (index : Fin NET_ROUTE_MAX) :
    (r index).valid = true ↔ index < l.length := by
  have hc := h.content index
  grind [Routes.content]

theorem Holds.find_free {r : Routes} {l : List Route} (h : Holds r l) :
    (List.finRange NET_ROUTE_MAX).find? (fun index => !(r index).valid) =
      if hr : l.length < NET_ROUTE_MAX then some ⟨l.length, hr⟩ else none := by
  split
  next hr =>
    rw [List.find?_eq_some_iff_getElem]
    refine ⟨?_, l.length, by simpa using hr, ?_, ?_⟩
    · simpa using mt (h.valid_iff ⟨l.length, hr⟩).mp (Nat.lt_irrefl _)
    · simp
    · intro j hj
      simpa using (h.valid_iff ⟨j, by omega⟩).mpr hj
  next hf =>
    rw [List.find?_eq_none]
    intro index _
    simpa using (h.valid_iff index).mpr (by have := index.isLt; omega)

theorem Holds.add {r : Routes} {l : List Route} (h : Holds r l) (a : RouteArguments) :
    Holds (r.add a).1 (if a.Proper ∧ l.length < NET_ROUTE_MAX then l ++ [a.route] else l) := by
  unfold Routes.add net_route_add
  by_cases hp : a.Proper
  · have hc : ¬ a.network &&& ~~~ a.netmask ≠ 0 := not_not.mpr hp
    rw [if_neg hc, route_add_loop_eq, h.find_free]
    by_cases hr : l.length < NET_ROUTE_MAX
    · rw [dif_pos hr, if_pos ⟨hp, hr⟩]
      constructor
      · grind
      · intro index
        rw [Routes.content_update _ _ rfl]
        by_cases hl : index = ⟨l.length, hr⟩
        · rw [if_pos hl, hl, List.getElem?_concat_length]
          rfl
        · rw [if_neg hl, h.content index, List.getElem?_append]
          grind
    simpa [hr] using h
  · have hc : a.network &&& ~~~ a.netmask ≠ 0 := hp
    grind

theorem Holds.addAll {r : Routes} {l : List Route} (h : Holds r l) (adds : List RouteArguments) :
    Holds (r.addAll adds) ((l ++ accepted adds).take NET_ROUTE_MAX) := by
  induction adds generalizing r l with
  | nil =>
    show Holds r ((l ++ []).take NET_ROUTE_MAX)
    rw [List.append_nil, List.take_of_length_le h.length]
    exact h
  | cons a adds ih =>
    have hr := ih (h.add a)
    by_cases hp : a.Proper
    · have ha : accepted (a :: adds) = a.route :: accepted adds := by
        unfold accepted
        grind
      rw [ha]
      by_cases hrm : l.length < NET_ROUTE_MAX
      · rw [if_pos ⟨hp, hrm⟩, List.append_assoc] at hr
        exact hr
      · have hl := h.length
        rw [if_neg fun hb => hrm hb.2, List.take_append_of_le_length (by omega)] at hr
        rw [List.take_append_of_le_length (by omega)]
        exact hr
    · have ha : accepted (a :: adds) = accepted adds := by
        unfold accepted
        grind
      rw [if_neg fun hb => hp hb.1] at hr
      rw [ha]
      exact hr

theorem addAll_holds (old : Routes) (a : List RouteArguments) :
    Holds ((net_route_init old).addAll a) (stored a) :=
  (net_route_init_holds old).addAll a

/-! ## What a lookup finds -/

def Route.Matches (route : Route) (destination : UInt32) : Prop := destination &&& route.netmask = route.network

instance (route : Route) (destination : UInt32) : Decidable (route.Matches destination) :=
  inferInstanceAs (Decidable (_ = _))

def matching (l : List Route) (destination : UInt32) : List Route := l.filter fun route => route.Matches destination

theorem mem_matching {l : List Route} {destination : UInt32} {route : Route} :
    route ∈ matching l destination ↔ route ∈ l ∧ route.Matches destination := by
  unfold matching
  rw [List.mem_filter, decide_eq_true_eq]

def Route.rank (route : Route) : Nat ×ₗ Natᵒᵈ := toLex (maskLength route.netmask, OrderDual.toDual route.metric.toNat)

theorem rank_lt_iff (a b : Route) :
    a.rank < b.rank ↔ mask_bits b.netmask > mask_bits a.netmask ∨
      (mask_bits b.netmask = mask_bits a.netmask ∧ b.metric < a.metric) := by
  unfold Route.rank
  simp [Prod.Lex.toLex_lt_toLex, ← toNat_mask_bits, OrderDual.toDual_lt_toDual, gt_iff_lt, UInt32.lt_iff_toNat_lt, ← UInt32.toNat_inj, eq_comm]

theorem matching_cons (r : Routes) (destination : UInt32) (index : Fin NET_ROUTE_MAX)
    (rest : List (Fin NET_ROUTE_MAX)) :
    matching ((index :: rest).filterMap r.content) destination =
      if (r index).valid = false ∨ destination &&& (r index).netmask ≠ (r index).network then
        matching (rest.filterMap r.content) destination
      else r index :: matching (rest.filterMap r.content) destination := by
  by_cases hv : (r index).valid = true
  · have hc : r.content index = some (r index) := if_pos hv
    rw [List.filterMap_cons_some hc]
    unfold matching
    by_cases hm : (r index).Matches destination
    · rw [List.filter_cons_of_pos (by simpa using hm), if_neg]
      exact not_or.mpr ⟨by simpa using hv, not_not.mpr hm⟩
    · rw [List.filter_cons_of_neg (by simpa using hm), if_pos]
      exact Or.inr hm
  · have hc : r.content index = none := if_neg hv
    grind

theorem route_lookup_loop_eq (r : Routes) (d : UInt32) (places : List (Fin NET_ROUTE_MAX))
    (bt : Option (Fin NET_ROUTE_MAX)) (bs : UInt32)
    (hbt : ∀ place, bt = some place → bs = mask_bits (r place).netmask) :
    (route_lookup_loop r d places bt bs).map r =
      (matching (places.filterMap r.content) d).foldl
        (List.argAux fun b c => c.rank < b.rank) (bt.map r) := by
  induction places generalizing bt bs with
  | nil => rfl
  | cons index rest ih =>
    have hn := ih (some index) (mask_bits (r index).netmask) fun place heq => by
      rw [Option.some.inj heq]
    rw [route_lookup_loop, matching_cons]
    by_cases hs : (r index).valid = false ∨
        d &&& (r index).netmask ≠ (r index).network
    · rw [if_pos hs, if_pos hs, ih bt bs hbt]
    rw [if_neg hs, if_neg hs, List.foldl_cons]
    rcases bt with _ | place
    · exact hn
    dsimp only
    have ht := rank_lt_iff (r place) (r index)
    rw [← hbt place rfl] at ht
    by_cases hb : (r place).rank < (r index).rank
    · rw [if_pos (ht.mp hb), hn]
      congr 1
      exact (if_pos hb).symm
    · rw [if_neg (mt ht.mpr hb), ih (some place) bs hbt]
      congr 1
      exact (if_neg hb).symm

theorem Holds.lookup {r : Routes} {l : List Route} (h : Holds r l) (d : UInt32) :
    net_route_lookup r d true = (matching l d).argmax Route.rank := by
  have hl := route_lookup_loop_eq r d (List.finRange NET_ROUTE_MAX) none 0 nofun
  rw [h.filterMap, Option.map_none] at hl
  grind [net_route_lookup, List.argmax]

/-- The route matches, no matching route has more mask bits, none with as many has a smaller metric, and
it is the first of those with the same ones. -/
structure Selected (l : List Route) (destination : UInt32) (route : Route) : Prop where
  mem : route ∈ l
  matching : route.Matches destination
  bits : ∀ other ∈ l, other.Matches destination → maskLength other.netmask ≤ maskLength route.netmask
  metric : ∀ other ∈ l, other.Matches destination → maskLength other.netmask = maskLength route.netmask →
    route.metric ≤ other.metric
  earliest : ∀ other ∈ l, other.Matches destination → maskLength other.netmask = maskLength route.netmask →
    other.metric = route.metric → (net.matching l destination).idxOf route ≤ (net.matching l destination).idxOf other

theorem rank_le_iff (a b : Route) :
    a.rank ≤ b.rank ↔ maskLength a.netmask < maskLength b.netmask ∨
      (maskLength a.netmask = maskLength b.netmask ∧ b.metric ≤ a.metric) := by
  unfold Route.rank
  rw [Prod.Lex.toLex_le_toLex, OrderDual.toDual_le_toDual, UInt32.le_iff_toNat_le]

theorem selected_of_argmax {l : List Route} {d : UInt32} {route : Route}
    (h : (matching l d).argmax Route.rank = some route) : Selected l d route := by
  obtain ⟨hmm, hb, hf⟩ := List.mem_argmax_iff.mp h
  obtain ⟨hs, hm⟩ := mem_matching.mp hmm
  have hr (o : Route) (hot : o ∈ l) (ho : o.Matches d) :=
    (rank_le_iff _ _).mp (hb o (mem_matching.mpr ⟨hot, ho⟩))
  constructor
  case mem => exact hs
  case matching => exact hm
  case bits => grind
  case metric => grind
  case earliest =>
    intro o hot ho hsm hmt
    refine hf o (mem_matching.mpr ⟨hot, ho⟩) ((rank_le_iff _ _).mpr (Or.inr ⟨hsm.symm, ?_⟩))
    exact UInt32.le_of_eq hmt

/-! ## Contiguous masks -/

/-- The destination begins with the network, as far as the mask goes. -/
def Route.Covers (route : Route) (destination : UInt32) : Prop :=
  destination.toNat / 2 ^ (32 - maskLength route.netmask) = route.network.toNat / 2 ^ (32 - maskLength route.netmask)

theorem mem_stored_proper {ad : List RouteArguments} {route : Route} (h : route ∈ stored ad) :
    route.network &&& ~~~ route.netmask = 0 := by
  obtain ⟨a, ha, rfl⟩ := List.mem_map.mp (List.mem_of_mem_take h)
  have hp := (List.mem_filter.mp ha).2
  exact of_decide_eq_true hp

theorem and_of_proper {network n : UInt32} (h : network &&& ~~~ n = 0) : network &&& n = network := by
  have hb (i : Nat) : (network &&& ~~~ n).toBitVec.getLsbD i = false := by
    rw [h]
    exact BitVec.getLsbD_zero
  apply UInt32.toBitVec_inj.mp
  apply BitVec.eq_of_getLsbD_eq
  intro i hi
  have ho := hb i
  grind [UInt32.toBitVec_and, UInt32.toBitVec_not, BitVec.getLsbD_and, BitVec.getLsbD_not]

theorem matches_iff_covers {route : Route} (hp : route.network &&& ~~~ route.netmask = 0)
    (hm : Contiguous route.netmask) (destination : UInt32) :
    route.Matches destination ↔ route.Covers destination := by
  obtain ⟨k, hk, hn⟩ := hm
  have hps := Nat.two_pow_pos (32 - k)
  unfold Route.Matches Route.Covers
  rw [maskLength_contiguous hk hn]
  nth_rewrite 1 [← and_of_proper hp]
  grind [UInt32.toNat_inj, UInt32.toNat_and, and_contiguous, Nat.mul_left_inj]

/-! ## The order of the calls -/

theorem argmax_perm {α β : Type} [LinearOrder β] {f : α → β} {l l' : List α} (hp : l.Perm l')
    (hi : ∀ a ∈ l, ∀ b ∈ l, f a = f b → a = b) : l.argmax f = l'.argmax f := by
  rcases h : l.argmax f with _ | a
  · rw [List.argmax_eq_none] at h
    subst h
    rw [List.nil_perm.mp hp, List.argmax_nil]
  rcases h' : l'.argmax f with _ | b
  · rw [List.argmax_eq_none] at h'
    subst h'
    rw [List.perm_nil.mp hp, List.argmax_nil] at h
    exact h.symm
  have ha := List.argmax_mem h
  have hb := hp.mem_iff.mpr (List.argmax_mem h')
  have hs : f a = f b :=
    le_antisymm (List.le_of_mem_argmax (hp.mem_iff.mp ha) h') (List.le_of_mem_argmax hb h)
  rw [hi a ha b hb hs]

theorem rank_eq_iff (a b : Route) :
    a.rank = b.rank ↔ (maskLength a.netmask, a.metric) = (maskLength b.netmask, b.metric) := by
  unfold Route.rank
  rw [toLex_inj, Prod.mk.injEq, Prod.mk.injEq, OrderDual.toDual_inj, UInt32.toNat_inj]

theorem stored_of_length_le {adds : List RouteArguments} (h : (accepted adds).length ≤ NET_ROUTE_MAX) :
    stored adds = accepted adds := List.take_of_length_le h

/-- After `net_route_init` and any calls of `net_route_add` the table holds the first 16 accepted routes. A
lookup fails just when none of them matches, and otherwise it selects one. With contiguous masks this is the longest prefix. When the
accepted routes fit in the table and differ in mask bits or metric, their order does not matter. -/
theorem routes_are_selected (old : Routes) (adds : List RouteArguments) (destination : UInt32) :
    let answer := net_route_lookup ((net_route_init old).addAll adds) destination true
    Holds ((net_route_init old).addAll adds) (stored adds) ∧
      (answer = none ↔ ∀ route ∈ stored adds, ¬ route.Matches destination) ∧
      (∀ route, answer = some route → Selected (stored adds) destination route) ∧
      ((∀ route ∈ stored adds, Contiguous route.netmask) →
        (answer = none ↔ ∀ route ∈ stored adds, ¬ route.Covers destination) ∧
        ∀ route, answer = some route → route ∈ stored adds ∧ route.Covers destination ∧
          ∀ other ∈ stored adds, other.Covers destination →
            maskLength other.netmask ≤ maskLength route.netmask) ∧
      ∀ (old' : Routes) (adds' : List RouteArguments), adds'.Perm adds →
        (accepted adds).length ≤ NET_ROUTE_MAX →
        ((accepted adds).map fun route => (maskLength route.netmask, route.metric)).Nodup →
        net_route_lookup ((net_route_init old').addAll adds') destination true = answer := by
  intro answer
  have hanswer : answer = (matching (stored adds) destination).argmax Route.rank :=
    (addAll_holds old adds).lookup destination
  have hnone : answer = none ↔ ∀ route ∈ stored adds, ¬ route.Matches destination := by
    rw [hanswer, List.argmax_eq_none, matching, List.filter_eq_nil_iff]
    simp only [decide_eq_true_eq]
  have hsome (route : Route) (h : answer = some route) : Selected (stored adds) destination route :=
    selected_of_argmax (hanswer.symm.trans h)
  refine ⟨addAll_holds old adds, hnone, hsome, fun hmasks => ⟨?_, ?_⟩, ?_⟩
  · rw [hnone]
    refine forall₂_congr fun route hroute => not_congr ?_
    exact matches_iff_covers (mem_stored_proper hroute) (hmasks route hroute) destination
  · intro route h
    have hcovers (other : Route) (hother : other ∈ stored adds) :=
      matches_iff_covers (mem_stored_proper hother) (hmasks other hother) destination
    have hselected := hsome route h
    refine ⟨hselected.mem, (hcovers route hselected.mem).mp hselected.matching, ?_⟩
    intro other hother hothers
    exact hselected.bits other hother ((hcovers other hother).mpr hothers)
  · intro old' adds' hperm hroom hnodup
    have haccepted : (accepted adds').Perm (accepted adds) := (hperm.filter _).map _
    rw [hanswer, (addAll_holds old' adds').lookup destination, stored_of_length_le hroom,
      stored_of_length_le (haccepted.length_eq.trans_le hroom)]
    refine (argmax_perm (haccepted.symm.filter _) ?_).symm
    intro a ha b hb hsame
    exact List.inj_on_of_nodup_map hnodup (mem_matching.mp ha).1 (mem_matching.mp hb).1 ((rank_eq_iff a b).mp hsame)

example (old : Routes) :
    let routes := (net_route_init old).addAll [⟨0, 0, 0xC0A80101, 100, 1⟩, ⟨0xC0A80100, 0xFFFFFF00, 0, 10, 2⟩]
    (net_route_lookup routes 0xC0A80144 true).map Route.interface_id = some 2 ∧
      (net_route_lookup routes 0x08080808 true).map Route.gateway = some 0xC0A80101 := by
  intro routes
  have hlookup (destination : UInt32) := (addAll_holds old
    [⟨0, 0, 0xC0A80101, 100, 1⟩, ⟨0xC0A80100, 0xFFFFFF00, 0, 10, 2⟩]).lookup destination
  rw [hlookup, hlookup]
  decide +kernel

end mvh.net
