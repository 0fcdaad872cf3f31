-- The line of the framebuffer driver (`framebuffer_line`).
import MvhKernel.Exact
import MvhKernel.Framebuffer
import MvhKernel.LineWalk

open exact_words line_walk

namespace mvh.framebuffer

/-! ## The points of the loop -/

def distance (a b : Int32) : Noted Int32 := if b > a then sub b a else sub a b

def direction (a b : Int32) : Int32 := if a < b then 1 else -1

/-- One of the two conditional moves of a turn, with the error and the coordinate that it leaves. -/
def move (moves : Prop) [Decidable moves] (error change place step : Int32) :
    Noted (Int32 × Int32) :=
  if moves then do
    let error ← add error change
    let place ← add place step
    pure (error, place)
  else pure (error, place)

def lineTurn (dx dy sx sy x0 y0 error : Int32) : Noted (Int32 × Int32 × Int32) := do
  let twice ← mul error 2
  let moved ← move (twice ≥ dy) error dy x0 sx
  let moved' ← move (twice ≤ dx) moved.1 dx y0 sy
  pure (moved.2, moved'.2, moved'.1)

/-- The points for which a pixel is put, when the loop ends in the given number of turns. -/
def linePoints (x1 y1 dx dy sx sy : Int32) :
    Nat → Int32 → Int32 → Int32 → Noted (Option (List (Int32 × Int32)))
  | 0, _, _, _ => pure none
  | turns + 1, x0, y0, error =>
    if x0 = x1 ∧ y0 = y1 then pure (some [(x0, y0)])
    else do
      let turn ← lineTurn dx dy sx sy x0 y0 error
      let points ← linePoints x1 y1 dx dy sx sy turns turn.1 turn.2.1 turn.2.2
      pure (points.map ((x0, y0) :: ·))

/-- The points of `framebuffer_line`, with a note whether every 32-bit value of it was exact. -/
def framebufferLinePoints (x0 y0 x1 y1 : Int32) (turns : Nat) :
    Noted (Option (List (Int32 × Int32))) := do
  let dx ← distance x0 x1
  let height ← distance y0 y1
  let dy ← neg height
  let error ← add dx dy
  linePoints x1 y1 dx dy (direction x0 x1) (direction y0 y1) turns x0 y0 error

def putPixels (color : UInt32) (points : List (Int32 × Int32)) (s : Screen) : Screen :=
  points.foldl (fun s p => framebuffer_put_pixel s p.1 p.2 color) s

theorem move_value (m : Prop) [Decidable m] (error change place step : Int32) :
    (move m error change place step).value =
      if m then (error + change, place + step) else (error, place) := by
  unfold move
  split <;> rfl

theorem lineTurn_value (dx dy sx sy x0 y0 error : Int32) :
    (lineTurn dx dy sx sy x0 y0 error).value =
      let moved := if error * 2 ≥ dy then (error + dy, x0 + sx) else (error, x0)
      let moved' := if error * 2 ≤ dx then (moved.1 + dx, y0 + sy) else (moved.1, y0)
      (moved.2, moved'.2, moved'.1) := by
  show ((move _ error dy x0 sx).value.2, (move _ (move _ error dy x0 sx).value.1 dx y0 sy).value.2,
    (move _ (move _ error dy x0 sx).value.1 dx y0 sy).value.1) = _
  simp only [move_value]
  rfl

theorem lineTurns_eq_putPixels {x1 y1 dx dy sx sy : Int32} {c : UInt32} {turns : Nat}
    {x0 y0 error : Int32} {p : List (Int32 × Int32)} (s : Screen)
    (h : (linePoints x1 y1 dx dy sx sy turns x0 y0 error).value = some p) :
    lineTurns x1 y1 dx dy sx sy c turns x0 y0 error s = putPixels c p s := by
  induction turns generalizing x0 y0 error p s with
  | zero => cases h
  | succ turns ih =>
    unfold linePoints at h
    unfold lineTurns
    split at h
    · rename_i he
      cases h
      rw [if_pos he]
      rfl
    · rename_i he
      rw [if_neg he]
      obtain ⟨rest, hr, rfl⟩ := Option.map_eq_some_iff.mp h
      refine Eq.trans ?_ (ih (framebuffer_put_pixel s x0 y0 c) hr)
      rw [lineTurn_value]

theorem framebuffer_line_eq_putPixels {x0 y0 x1 y1 : Int32} {turns : Nat}
    {p : List (Int32 × Int32)} (s : Screen) (c : UInt32)
    (h : (framebufferLinePoints x0 y0 x1 y1 turns).value = some p) :
    framebuffer_line s x0 y0 x1 y1 c turns = putPixels c p s := by
  have hd : ∀ a b : Int32, (distance a b).value = if b > a then b - a else a - b := by
    intro a b
    unfold distance
    split <;> rfl
  apply lineTurns_eq_putPixels
  rw [← h, ← hd x0 x1, ← hd y0 y1]
  rfl

/-! ## A coordinate on its way -/

/-- One coordinate of the two end points. -/
structure Side where
  start : Int32
  stop : Int32
  start_near : |start.toInt| < 2 ^ 28
  stop_near : |stop.toInt| < 2 ^ 28

namespace Side
variable (side : Side)

def length : Nat := (side.stop.toInt - side.start.toInt).natAbs

def sign : Int := if side.start < side.stop then 1 else -1

def place (moved : Nat) : Int := side.start.toInt + side.sign * moved

theorem direction_eq : direction side.start side.stop = Int32.ofInt side.sign := by
  unfold direction sign
  split <;> rfl

theorem sign_cases :
    (side.sign = 1 ∧ (side.length : Int) = side.stop.toInt - side.start.toInt) ∨
      (side.sign = -1 ∧ (side.length : Int) = side.start.toInt - side.stop.toInt) := by
  grind [Int32.lt_iff_toInt_lt, sign, length]

theorem bounds : (-2 ^ 28 < side.start.toInt ∧ side.start.toInt < 2 ^ 28) ∧
    -2 ^ 28 < side.stop.toInt ∧ side.stop.toInt < 2 ^ 28 :=
  ⟨abs_lt.mp side.start_near, abs_lt.mp side.stop_near⟩

theorem length_lt : side.length < 2 ^ 29 := by
  have hb := side.bounds
  unfold length
  omega

theorem distance_eq : distance side.start side.stop = pure (Int32.ofInt side.length) := by
  have hb := side.bounds
  have hs : ∀ c d : Int32, Fits32 c.toInt → Fits32 d.toInt → c.toInt - d.toInt = side.length →
      sub c d = pure (Int32.ofInt side.length) := by
    intro c d hc hd hcd
    have hlt := side.length_lt
    have he := sub32 hc hd (by rw [hcd]; exact ⟨by omega, by omega⟩)
    grind [Int32.ofInt_toInt]
  unfold distance
  split
  · rename_i hlt
    rw [gt_iff_lt, Int32.lt_iff_toInt_lt] at hlt
    exact hs _ _ ⟨by omega, by omega⟩ ⟨by omega, by omega⟩ (by unfold length; omega)
  · rename_i hle
    rw [gt_iff_lt, Int32.lt_iff_toInt_lt] at hle
    exact hs _ _ ⟨by omega, by omega⟩ ⟨by omega, by omega⟩ (by unfold length; omega)

variable {side} {moved : Nat}

theorem place_ite (m : Prop) [Decidable m] :
    side.place (if m then moved + 1 else moved) =
      if m then side.place moved + side.sign else side.place moved := by
  unfold place
  split
  · push_cast
    ring
  · rfl

section
variable (h : moved ≤ side.length)
include h

theorem place_between : min side.start.toInt side.stop.toInt ≤ side.place moved ∧
    side.place moved ≤ max side.start.toInt side.stop.toInt := by
  unfold place
  rcases side.sign_cases with ⟨hs, hl⟩ | ⟨hs, hl⟩ <;> rw [hs] <;> omega

theorem place_small : -2 ^ 28 < side.place moved ∧ side.place moved < 2 ^ 28 := by
  have hbn := side.bounds
  have hb := place_between h
  omega

theorem toInt_place : (Int32.ofInt (side.place moved)).toInt = side.place moved := by
  have hs := place_small h
  exact toInt_ofInt32 ⟨by omega, by omega⟩

theorem place_eq_stop_iff : Int32.ofInt (side.place moved) = side.stop ↔ moved = side.length := by
  rw [← Int32.toInt_inj, toInt_place h]
  unfold place
  rcases side.sign_cases with ⟨hs, hl⟩ | ⟨hs, hl⟩ <;> rw [hs] <;> omega

end

theorem place_zero : Int32.ofInt (side.place 0) = side.start := by
  rw [place, Nat.cast_zero, mul_zero, add_zero, Int32.ofInt_toInt]

theorem place_near {m : Nat} (hl : moved ≤ m) (hm : m ≤ moved + 1)
    (h : m ≤ side.length) :
    |(Int32.ofInt (side.place m)).toInt - (Int32.ofInt (side.place moved)).toInt| ≤ 1 := by
  rw [toInt_place h, toInt_place (hl.trans h), abs_le]
  unfold place
  rcases side.sign_cases with ⟨hs, -⟩ | ⟨hs, -⟩ <;> rw [hs] <;> constructor <;> omega

end Side

/-! ## The loop is a walk -/

theorem move_eq {m : Prop} [Decidable m] {error change place step : Int}
    (he : Fits32 error) (hc : Fits32 change) (he' : Fits32 (error + change))
    (hp : Fits32 place) (hs : Fits32 step) (hp' : Fits32 (place + step)) :
    move m (Int32.ofInt error) (Int32.ofInt change) (Int32.ofInt place) (Int32.ofInt step) =
      pure (Int32.ofInt (if m then error + change else error),
        Int32.ofInt (if m then place + step else place)) := by
  unfold move
  split
  · rw [bind_of_eq_pure (add32 he hc he'),
      bind_of_eq_pure (add32 hp hs hp')]
  · rfl

theorem sub_ite_add_ite (e w h : Int) (p q : Prop) [Decidable p] [Decidable q] :
    e - (if p then h else 0) + (if q then w else 0) =
      if q then (if p then e + -h else e) + w else if p then e + -h else e := by
  split_ifs <;> omega

section Line
variable (across down : Side)

def steps : Nat := max across.length down.length

def pointAt (turn : Nat) : Int32 × Int32 :=
  (Int32.ofInt (across.place (walk across.length down.length turn).1),
    Int32.ofInt (down.place (walk across.length down.length turn).2))

def errorAt (turn : Nat) : Int32 :=
  Int32.ofInt (error across.length down.length (walk across.length down.length turn))

def lineFrom (turn turns : Nat) : Noted (Option (List (Int32 × Int32))) :=
  linePoints across.stop down.stop (Int32.ofInt across.length) (Int32.ofInt (-down.length))
    (direction across.start across.stop) (direction down.start down.stop) turns
    (pointAt across down turn).1 (pointAt across down turn).2 (errorAt across down turn)

theorem pointAt_zero : pointAt across down 0 = (across.start, down.start) :=
  Prod.ext Side.place_zero Side.place_zero

variable {across down} {turn : Nat}

theorem lineTurn_pointAt (h : turn ≤ steps across down) :
    lineTurn (Int32.ofInt across.length) (Int32.ofInt (-down.length))
        (direction across.start across.stop) (direction down.start down.stop)
        (pointAt across down turn).1 (pointAt across down turn).2 (errorAt across down turn) =
      pure ((pointAt across down (turn + 1)).1, (pointAt across down (turn + 1)).2,
        errorAt across down (turn + 1)) := by
  have hw := across.length_lt
  have hh := down.length_lt
  obtain ⟨hi, hin⟩ := walk_inside h
  obtain ⟨hl, hhg⟩ := error_bounds across.length down.length turn
  have hx := Side.place_small hi
  have hy := Side.place_small hin
  have hsx := across.sign_cases
  have hsy := down.sign_cases
  unfold pointAt errorAt
  rw [across.direction_eq, down.direction_eq, walk_succ, error_next]
  show _ = pure (Int32.ofInt (across.place (if _ then _ else _)),
    Int32.ofInt (down.place (if _ then _ else _)), _)
  rw [Side.place_ite, Side.place_ite]
  rw [sub_ite_add_ite]
  generalize walk across.length down.length turn = p at *
  generalize error across.length down.length p = e at *
  generalize across.place p.1 = x at *
  generalize down.place p.2 = y at *
  have ht : mul (Int32.ofInt e) 2 = pure (Int32.ofInt (e * 2)) :=
    mul32 (n := 2) ⟨by omega, by omega⟩ ⟨by omega, by omega⟩ ⟨by omega, by omega⟩
  have hm : Int32.ofInt (e * 2) ≥ Int32.ofInt (-down.length) ↔ -(down.length : Int) ≤ e * 2 :=
    le_ofInt32 ⟨by omega, by omega⟩ ⟨by omega, by omega⟩
  have hmv : Int32.ofInt (e * 2) ≤ Int32.ofInt across.length ↔ e * 2 ≤ across.length :=
    le_ofInt32 ⟨by omega, by omega⟩ ⟨by omega, by omega⟩
  unfold lineTurn
  rw [bind_of_eq_pure ht]
  simp only [hm, hmv]
  rw [bind_of_eq_pure (move_eq ⟨by omega, by omega⟩ ⟨by omega, by omega⟩ ⟨by omega, by omega⟩
      ⟨by omega, by omega⟩ ⟨by omega, by omega⟩ ⟨by omega, by omega⟩),
    bind_of_eq_pure (move_eq ⟨by split <;> omega, by split <;> omega⟩ ⟨by omega, by omega⟩
      ⟨by split <;> omega, by split <;> omega⟩ ⟨by omega, by omega⟩ ⟨by omega, by omega⟩
      ⟨by omega, by omega⟩)]

theorem pointAt_eq_stop_iff (h : turn ≤ steps across down) :
    ((pointAt across down turn).1 = across.stop ∧ (pointAt across down turn).2 = down.stop) ↔
      turn = steps across down := by
  obtain ⟨hi, hin⟩ := walk_inside h
  grind [Side.place_eq_stop_iff, steps, walk_end, pointAt, walk_ne_end]

theorem lineFrom_eq (left turn : Nat) (h : turn + left = steps across down) (turns : Nat) :
    lineFrom across down turn turns = pure (if left < turns then
      some ((List.range' turn (left + 1)).map (pointAt across down)) else none) := by
  cases turns with
  | zero => rfl
  | succ turns =>
    have he := pointAt_eq_stop_iff (show turn ≤ steps across down by omega)
    unfold lineFrom linePoints
    cases left with
    | zero => grind
    | succ left =>
      rw [if_neg (fun hd => by have := he.mp hd; omega),
        bind_of_eq_pure (lineTurn_pointAt (by omega))]
      show (lineFrom across down (turn + 1) turns >>= _) = _
      rw [bind_of_eq_pure (lineFrom_eq left (turn + 1) (by omega) turns)]
      by_cases ht : left < turns
      · rw [if_pos ht, if_pos (Nat.succ_lt_succ ht)]
        rfl
      simp [ht]

variable (across down)

theorem framebufferLinePoints_eq (turns : Nat) :
    framebufferLinePoints across.start down.start across.stop down.stop turns =
      lineFrom across down 0 turns := by
  have hw := across.length_lt
  have hh := down.length_lt
  have he : errorAt across down 0 = Int32.ofInt (across.length + -down.length) := by
    simp [errorAt, error, walk, Int.sub_eq_add_neg]
  unfold framebufferLinePoints lineFrom
  rw [bind_of_eq_pure across.distance_eq, bind_of_eq_pure down.distance_eq,
    bind_of_eq_pure (neg32 ⟨by omega, by omega⟩ ⟨by omega, by omega⟩),
    bind_of_eq_pure (add32 ⟨by omega, by omega⟩ ⟨by omega, by omega⟩ ⟨by omega, by omega⟩),
    pointAt_zero, he]

end Line

/-- The line ends after as many steps as the longer side of its box has, whatever the number of
turns is that it is given beyond them, and has not ended before. No 32-bit value overflows. It puts
a pixel at each of its points, from the first end to the second, goes by at most one column and one
line at a time and stays in the box. -/
theorem the_line_arrives (x0 y0 x1 y1 : Int32) (hx0 : |x0.toInt| < 2 ^ 28)
    (hy0 : |y0.toInt| < 2 ^ 28) (hx1 : |x1.toInt| < 2 ^ 28) (hy1 : |y1.toInt| < 2 ^ 28) :
    ∃ points : List (Int32 × Int32),
      points.length = max (x1.toInt - x0.toInt).natAbs (y1.toInt - y0.toInt).natAbs + 1 ∧
      (∀ turns, framebufferLinePoints x0 y0 x1 y1 turns =
        ⟨if points.length ≤ turns then some points else none, true⟩) ∧
      (∀ s color turns, points.length ≤ turns →
        framebuffer_line s x0 y0 x1 y1 color turns = putPixels color points s) ∧
      points.head? = some (x0, y0) ∧ points.getLast? = some (x1, y1) ∧
      points.IsChain (fun p q => |q.1.toInt - p.1.toInt| ≤ 1 ∧ |q.2.toInt - p.2.toInt| ≤ 1) ∧
      ∀ p ∈ points, (min x0.toInt x1.toInt ≤ p.1.toInt ∧ p.1.toInt ≤ max x0.toInt x1.toInt) ∧
        min y0.toInt y1.toInt ≤ p.2.toInt ∧ p.2.toInt ≤ max y0.toInt y1.toInt := by
  let across : Side := ⟨x0, x1, hx0, hx1⟩
  let down : Side := ⟨y0, y1, hy0, hy1⟩
  have hall (turns : Nat) := (framebufferLinePoints_eq across down turns).trans
    (lineFrom_eq (steps across down) 0 (Nat.zero_add _) turns)
  rw [← List.range_eq_range'] at hall
  have hlast := (pointAt_eq_stop_iff (le_refl (steps across down))).mpr rfl
  have hlength : ((List.range (steps across down + 1)).map (pointAt across down)).length =
      steps across down + 1 := by
    rw [List.length_map, List.length_range]
  refine ⟨_, hlength, ?_, ?_, ?_, ?_, ?_, ?_⟩
  · intro turns
    rw [hlength]
    exact hall turns
  · intro s color turns hturns
    rw [hlength] at hturns
    apply framebuffer_line_eq_putPixels
    rw [hall turns, if_pos (Nat.lt_of_succ_le hturns)]
    rfl
  · rw [List.range_succ_eq_map, List.map_cons, List.head?_cons, pointAt_zero]
  · rw [List.range_succ, List.map_append, List.map_singleton, List.getLast?_concat]
    exact congrArg some (Prod.ext hlast.1 hlast.2)
  · rw [List.isChain_iff_getElem]
    intro i hi
    rw [hlength] at hi
    simp only [List.getElem_map, List.getElem_range]
    obtain ⟨hinw, hinh⟩ := walk_inside (show i + 1 ≤ steps across down by omega)
    obtain ⟨⟨hx, hx'⟩, hy, hy'⟩ := next_moves across.length down.length (walk _ _ i)
    rw [← walk_succ] at hx hx' hy hy'
    exact ⟨Side.place_near hx hx' hinw, Side.place_near hy hy' hinh⟩
  · intro p hp
    obtain ⟨turn, hturn, rfl⟩ := List.mem_map.mp hp
    obtain ⟨hinw, hinh⟩ := walk_inside (Nat.lt_succ_iff.mp (List.mem_range.mp hturn))
    have hx := Side.place_between hinw
    have hy := Side.place_between hinh
    rw [← Side.toInt_place hinw] at hx
    rw [← Side.toInt_place hinh] at hy
    exact ⟨hx, hy⟩

theorem a_line_of_three_steps :
    ∃ points : List (Int32 × Int32), points.length = 4 ∧
      (∀ s color, framebuffer_line s 0 0 3 (-2) color 4 = putPixels color points s) ∧
      points.getLast? = some (3, -2) := by
  obtain ⟨points, hlength, -, hpixels, -, hlast, -⟩ :=
    the_line_arrives 0 0 3 (-2) (by decide) (by decide) (by decide) (by decide)
  exact ⟨points, hlength, fun s color => hpixels s color 4 (Nat.le_of_eq hlength), hlast⟩

end mvh.framebuffer
