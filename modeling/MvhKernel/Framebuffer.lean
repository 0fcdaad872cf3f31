-- The framebuffer driver (`framebuffer.c`).
import MvhKernel.Multiboot
import MvhKernel.Runs

open flat_memory scan

namespace mvh.framebuffer

open bootinfo

/-- The status, and the bytes written so far with their offsets from `pixels`. -/
structure Screen where
  available : UInt8
  active : UInt8
  bits_per_pixel : UInt8
  width : UInt32
  height : UInt32
  pitch : UInt32
  physical_address : UInt64
  mapped_bytes : UInt64
  pixels_written : UInt64
  written : List (Nat × UInt8)
  deriving DecidableEq

/-! ## Set-up -/

abbrev FRAMEBUFFER_WINDOW : UInt64 := 0x60000000
abbrev FRAMEBUFFER_MAX_BYTES : UInt64 := 64 * 1024 * 1024

abbrev WINDOW_FLAGS : UInt64 := 0x8000000000000012

def noScreen : Screen := ⟨0, 0, 0, 0, 0, 0, 0, 0, 0, []⟩

section
variable {V : Type} (vmm_map_page : V → UInt64 → UInt64 → UInt64 → V × Int)

/-- The loop that maps the window, from a page on with the pages that are left. -/
def mapWindow (physical : UInt64) : UInt64 → Nat → V → V × Bool
  | _, 0, vmm => (vmm, true)
  | page, left + 1, vmm =>
    match vmm_map_page vmm (FRAMEBUFFER_WINDOW + page * 0x1000) (physical + page * 0x1000)
        WINDOW_FLAGS with
    | (vmm, 0) => mapWindow physical (page + 1) left vmm
    | (vmm, _) => (vmm, false)

def framebuffer_init (boot : Snapshot) (vmm : V) : V × Screen × Int :=
  let frame := boot.framebuffer
  if boot.flags &&& FLAG_FRAMEBUFFER = 0 ∨ frame.address = 0 ∨ frame.width < 320 ∨
      frame.height < 200 ∨ (frame.bits_per_pixel ≠ 24 ∧ frame.bits_per_pixel ≠ 32) then
    (vmm, noScreen, -1)
  else
    let bytes := frame.pitch.toUInt64 * frame.height.toUInt64
    if bytes = 0 ∨ bytes > FRAMEBUFFER_MAX_BYTES then (vmm, noScreen, -1)
    else
      let physical := frame.address &&& ~~~0xFFF
      let offset := frame.address &&& 0xFFF
      let pages := (offset + bytes + 0xFFF) / 0x1000
      match mapWindow vmm_map_page physical 0 pages.toNat vmm with
      | (vmm, false) => (vmm, noScreen, -1)
      | (vmm, true) =>
        (vmm, ⟨1, 1, frame.bits_per_pixel.toUInt8, frame.width, frame.height, frame.pitch,
          frame.address, bytes, 0, []⟩, 0)

variable {vmm_map_page}

theorem mapWindow_keeps {keep : V → Prop} {l : Nat}
    (hm : ∀ (vmm : V) (pg p : UInt64), pg.toNat < l → keep vmm →
      keep (vmm_map_page vmm (FRAMEBUFFER_WINDOW + pg * 0x1000) p WINDOW_FLAGS).1)
    (ph pg : UInt64) (left : Nat) (hl : pg.toNat + left ≤ l)
    (hw : l < 2 ^ 64) {vmm : V} (h : keep vmm) :
    keep (mapWindow vmm_map_page ph pg left vmm).1 := by
  induction left generalizing pg vmm with
  | zero => exact h
  | succ left ih =>
    have hn : (pg + 1).toNat = pg.toNat + 1 := by grind
    have hk := hm vmm pg (ph + pg * 0x1000) (by omega) h
    grind [mapWindow]

theorem framebuffer_init_keeps {keep : V → Prop} (boot : Snapshot)
    (hmp : boot.flags &&& FLAG_FRAMEBUFFER ≠ 0 → ∀ (vmm : V) (pg p : UInt64),
      pg.toNat < 2 ^ 15 → keep vmm →
      keep (vmm_map_page vmm (FRAMEBUFFER_WINDOW + pg * 0x1000) p WINDOW_FLAGS).1)
    {vmm : V} (h : keep vmm) : keep (framebuffer_init vmm_map_page boot vmm).1 := by
  -- The o is below a pg and the b are at most 64 MiB.
  have hp {o b : UInt64} (ho : o = boot.framebuffer.address &&& 0xFFF)
      (hb : ¬ (b = 0 ∨ b > FRAMEBUFFER_MAX_BYTES)) :
      ((o + b + 0xFFF) / 0x1000).toNat ≤ 2 ^ 15 := by
    have hof : o.toNat < 4096 := by
      rw [ho, UInt64.toNat_and]
      exact Nat.lt_succ_of_le Nat.and_le_right
    grind
  fun_cases framebuffer_init vmm_map_page boot vmm
  case case1 => exact h
  case case2 => exact h
  case case3 frame hf b hby physical o pages vmm' hm =>
    have hk := mapWindow_keeps (hmp (not_or.mp hf).1) physical 0 pages.toNat
      (by rw [UInt64.toNat_zero, Nat.zero_add]; exact hp rfl hby) (by decide) h
    rw [hm] at hk
    exact hk
  case case4 frame hf b hby physical o pages vmm' hm =>
    have hk := mapWindow_keeps (hmp (not_or.mp hf).1) physical 0 pages.toNat
      (by rw [UInt64.toNat_zero, Nat.zero_add]; exact hp rfl hby) (by decide) h
    rw [hm] at hk
    exact hk

end

/-! ## Drawing -/

def framebuffer_put_pixel (s : Screen) (x y : Int32) (color : UInt32) : Screen :=
  if s.active = 0 ∨ x < 0 ∨ y < 0 ∨ x.toUInt32 ≥ s.width ∨ y.toUInt32 ≥ s.height then s
  else
    let target := (y.toUInt32 * s.pitch).toNat + (x.toUInt32 * (s.bits_per_pixel / 8).toUInt32).toNat
    let bytes := [(target, color.toUInt8), (target + 1, (color >>> 8).toUInt8),
      (target + 2, (color >>> 16).toUInt8)] ++ if s.bits_per_pixel = 32 then [(target + 3, 0)] else []
    { s with written := s.written ++ bytes, pixels_written := s.pixels_written + 1 }

/-- A `for` loop that counts from `start` while the counter is below `limit`. -/
def countUp (start limit : Int32) (turn : Int32 → Screen → Screen) (s : Screen) : Screen :=
  (List.range (limit.toInt - start.toInt).toNat).foldl (fun s i => turn (start + Int32.ofNat i) s) s

def framebuffer_fill_rect (s : Screen) (x y width height : Int32) (color : UInt32) : Screen :=
  if width ≤ 0 ∨ height ≤ 0 then s
  else
    countUp y (y + height) (fun py =>
      countUp x (x + width) fun px s => framebuffer_put_pixel s px py color) s

def lineTurns (x1 y1 dx dy sx sy : Int32) (color : UInt32) :
    Nat → Int32 → Int32 → Int32 → Screen → Screen
  | 0, _, _, _, s => s
  | turns + 1, x0, y0, error, s =>
    let s := framebuffer_put_pixel s x0 y0 color
    if x0 = x1 ∧ y0 = y1 then s
    else
      let twice := error * 2
      let (error, x0) := if twice ≥ dy then (error + dy, x0 + sx) else (error, x0)
      let (error, y0) := if twice ≤ dx then (error + dx, y0 + sy) else (error, y0)
      lineTurns x1 y1 dx dy sx sy color turns x0 y0 error s

def framebuffer_line (s : Screen) (x0 y0 x1 y1 : Int32) (color : UInt32) (turns : Nat) : Screen :=
  let dx := if x1 > x0 then x1 - x0 else x0 - x1
  let sx : Int32 := if x0 < x1 then 1 else -1
  let dy := -(if y1 > y0 then y1 - y0 else y0 - y1)
  let sy : Int32 := if y0 < y1 then 1 else -1
  lineTurns x1 y1 dx dy sx sy color turns x0 y0 (dx + dy) s

def font : List (UInt8 × List UInt8) :=
  [(32, [0, 0, 0, 0, 0, 0, 0]), (33, [4, 4, 4, 4, 4, 0, 4]), (45, [0, 0, 0, 31, 0, 0, 0]),
    (46, [0, 0, 0, 0, 0, 6, 6]), (58, [0, 6, 6, 0, 6, 6, 0]), (47, [1, 2, 4, 8, 16, 0, 0]),
    (48, [14, 17, 19, 21, 25, 17, 14]), (49, [4, 12, 4, 4, 4, 4, 14]),
    (50, [14, 17, 1, 2, 4, 8, 31]), (51, [30, 1, 1, 14, 1, 1, 30]),
    (52, [2, 6, 10, 18, 31, 2, 2]), (53, [31, 16, 16, 30, 1, 1, 30]),
    (54, [14, 16, 16, 30, 17, 17, 14]), (55, [31, 1, 2, 4, 8, 8, 8]),
    (56, [14, 17, 17, 14, 17, 17, 14]), (57, [14, 17, 17, 15, 1, 1, 14]),
    (65, [14, 17, 17, 31, 17, 17, 17]), (66, [30, 17, 17, 30, 17, 17, 30]),
    (67, [14, 17, 16, 16, 16, 17, 14]), (68, [28, 18, 17, 17, 17, 18, 28]),
    (69, [31, 16, 16, 30, 16, 16, 31]), (70, [31, 16, 16, 30, 16, 16, 16]),
    (71, [14, 17, 16, 23, 17, 17, 15]), (72, [17, 17, 17, 31, 17, 17, 17]),
    (73, [14, 4, 4, 4, 4, 4, 14]), (74, [7, 2, 2, 2, 2, 18, 12]),
    (75, [17, 18, 20, 24, 20, 18, 17]), (76, [16, 16, 16, 16, 16, 16, 31]),
    (77, [17, 27, 21, 21, 17, 17, 17]), (78, [17, 25, 21, 19, 17, 17, 17]),
    (79, [14, 17, 17, 17, 17, 17, 14]), (80, [30, 17, 17, 30, 16, 16, 16]),
    (81, [14, 17, 17, 17, 21, 18, 13]), (82, [30, 17, 17, 30, 20, 18, 17]),
    (83, [15, 16, 16, 14, 1, 1, 30]), (84, [31, 4, 4, 4, 4, 4, 4]),
    (85, [17, 17, 17, 17, 17, 17, 14]), (86, [17, 17, 17, 17, 17, 10, 4]),
    (87, [17, 17, 17, 21, 21, 21, 10]), (88, [17, 17, 10, 4, 10, 17, 17]),
    (89, [17, 17, 10, 4, 4, 4, 4]), (90, [31, 1, 2, 4, 8, 16, 31]),
    (63, [14, 17, 1, 2, 4, 0, 4]), (95, [0, 0, 0, 0, 0, 0, 31])]

def glyph_rows (value : UInt8) : List UInt8 :=
  let value := if 97 ≤ value ∧ value ≤ 122 then value - 97 + 65 else value
  match font.find? fun glyph => glyph.1 == value with
  | some glyph => glyph.2
  | none => (font.getLastD (0, [])).2

def framebuffer_draw_char (s : Screen) (x y : Int32) (value : UInt8) (scale foreground : UInt32) :
    Screen :=
  if scale = 0 ∨ scale > 8 then s
  else
    (List.range 7).foldl (fun s row =>
      (List.range 5).foldl (fun s column =>
        if (glyph_rows value).getD row 0 &&& (1 <<< (4 - UInt8.ofNat column)) ≠ 0 then
          framebuffer_fill_rect s (x + (UInt32.ofNat column * scale).toInt32)
            (y + (UInt32.ofNat row * scale).toInt32) scale.toInt32 scale.toInt32 foreground
        else s) s) s

def framebuffer_draw_text (s : Screen) (x y : Int32) (text : List UInt8) (scale foreground : UInt32) :
    Screen :=
  match text with
  | [] => s
  | value :: text =>
    framebuffer_draw_text (framebuffer_draw_char s x y value scale foreground)
      (x + (6 * scale).toInt32) y text scale foreground

inductive Call where
  | putPixel (x y : Int32) (color : UInt32)
  | fillRect (x y width height : Int32) (color : UInt32)
  | line (x0 y0 x1 y1 : Int32) (color : UInt32) (turns : Nat)
  | drawChar (x y : Int32) (value : UInt8) (scale foreground : UInt32)
  | drawText (x y : Int32) (text : List UInt8) (scale foreground : UInt32)

def Screen.step (s : Screen) : Call → Screen
  | .putPixel x y color => framebuffer_put_pixel s x y color
  | .fillRect x y width height color => framebuffer_fill_rect s x y width height color
  | .line x0 y0 x1 y1 color turns => framebuffer_line s x0 y0 x1 y1 color turns
  | .drawChar x y value scale foreground => framebuffer_draw_char s x y value scale foreground
  | .drawText x y text scale foreground => framebuffer_draw_text s x y text scale foreground

/-! ## What a pixel keeps, every call keeps -/

section
variable {keep : Screen → Prop}
  (hpixel : ∀ s x y color, keep s → keep (framebuffer_put_pixel s x y color))
include hpixel

omit hpixel in
theorem foldl_keeps {α : Type} {turn : Screen → α → Screen}
    (ht : ∀ s a, keep s → keep (turn s a)) (l : List α) {s : Screen} (h : keep s) :
    keep (l.foldl turn s) := by
  induction l generalizing s with
  | nil => exact h
  | cons a l ih => exact ih (ht s a h)

theorem fill_rect_keeps {s : Screen} (h : keep s) (x y w hg : Int32) (color : UInt32) :
    keep (framebuffer_fill_rect s x y w hg color) := by
  unfold framebuffer_fill_rect
  split
  · exact h
  · refine foldl_keeps (fun s py hs => ?_) _ h
    exact foldl_keeps (fun s px hs => hpixel s _ _ color hs) _ hs

theorem lineTurns_keeps (x1 y1 dx dy sx sy : Int32) (color : UInt32) (turns : Nat)
    (x0 y0 error : Int32) {s : Screen} (h : keep s) :
    keep (lineTurns x1 y1 dx dy sx sy color turns x0 y0 error s) := by
  induction turns generalizing x0 y0 error s with
  | zero => exact h
  | succ turns ih => grind [lineTurns]

theorem draw_char_keeps {s : Screen} (h : keep s) (x y : Int32) (v : UInt8)
    (sc f : UInt32) : keep (framebuffer_draw_char s x y v sc f) := by
  unfold framebuffer_draw_char
  split
  · exact h
  · refine foldl_keeps (fun s row hs => foldl_keeps (fun s c hs => ?_) _ hs) _ h
    split
    · exact fill_rect_keeps hpixel hs _ _ _ _ _
    · exact hs

theorem draw_text_keeps {s : Screen} (h : keep s) (x y : Int32) (t : List UInt8)
    (sc f : UInt32) : keep (framebuffer_draw_text s x y t sc f) := by
  induction t generalizing s x with
  | nil => exact h
  | cons v t ih => exact ih (draw_char_keeps hpixel h x y v sc f) _

theorem step_keeps {s : Screen} (c : Call) (h : keep s) : keep (s.step c) := by
  cases c with
  | putPixel x y color => exact hpixel s x y color h
  | fillRect x y w hg color => exact fill_rect_keeps hpixel h x y w hg color
  | line x0 y0 x1 y1 color turns => exact lineTurns_keeps hpixel _ _ _ _ _ _ _ _ _ _ _ h
  | drawChar x y v sc f => exact draw_char_keeps hpixel h x y v sc f
  | drawText x y t sc f => exact draw_text_keeps hpixel h x y t sc f

end

/-! ## Writes and the mapped part -/

def Contained (s : Screen) : Prop := ∀ entry ∈ s.written, entry.1 < s.mapped_bytes.toNat

/-- The geometry that `framebuffer_init` leaves. -/
structure Geometry (s : Screen) : Prop where
  depth : s.bits_per_pixel = 24 ∨ s.bits_per_pixel = 32
  bytes : s.mapped_bytes.toNat = s.pitch.toNat * s.height.toNat
  bound : 0 < s.mapped_bytes.toNat ∧ s.mapped_bytes.toNat ≤ 64 * 1024 * 1024

def Screen.pixelBytes (s : Screen) : Nat := (s.bits_per_pixel / 8).toNat

def Roomy (s : Screen) : Prop := s.width.toNat * s.pixelBytes ≤ s.pitch.toNat

def Screen.target (s : Screen) (x y : Int32) : Nat :=
  (y.toUInt32 * s.pitch).toNat + (x.toUInt32 * (s.bits_per_pixel / 8).toUInt32).toNat

def Screen.Shows (s : Screen) (x y : Int32) : Prop :=
  ¬ (s.active = 0 ∨ x < 0 ∨ y < 0 ∨ x.toUInt32 ≥ s.width ∨ y.toUInt32 ≥ s.height)

theorem mem_pixel {s : Screen} (hd : s.bits_per_pixel = 24 ∨ s.bits_per_pixel = 32) {x y : Int32}
    (hs : s.Shows x y) (color : UInt32) (o : Nat) :
    (∃ byte, (o, byte) ∈ (framebuffer_put_pixel s x y color).written) ↔
      (∃ byte, (o, byte) ∈ s.written) ∨
      (s.target x y ≤ o ∧ o < s.target x y + s.pixelBytes) := by
  have hw : (framebuffer_put_pixel s x y color).written = s.written ++
      ([(s.target x y, color.toUInt8), (s.target x y + 1, (color >>> 8).toUInt8),
        (s.target x y + 2, (color >>> 16).toUInt8)] ++
        if s.bits_per_pixel = 32 then [(s.target x y + 3, 0)] else []) := by
    unfold framebuffer_put_pixel
    rw [if_neg hs]
    rfl
  rw [hw]
  simp only [List.mem_append, exists_or]
  refine or_congr Iff.rfl ?_
  rcases hd with hd | hd
  · have hb : s.pixelBytes = 3 := by rw [Screen.pixelBytes, hd]; rfl
    rw [hb, if_neg (by rw [hd]; decide)]
    simp only [List.mem_cons, Prod.mk.injEq, List.not_mem_nil, or_false, exists_or,
      exists_and_left, exists_eq, and_true, exists_const]
    omega
  · have hb : s.pixelBytes = 4 := by rw [Screen.pixelBytes, hd]; rfl
    rw [hb, if_pos hd]
    simp only [List.mem_cons, Prod.mk.injEq, List.not_mem_nil, or_false, exists_or,
      exists_and_left, exists_eq, and_true]
    omega

theorem Geometry.pixelBytes {s : Screen} (h : Geometry s) :
    (s.bits_per_pixel / 8).toUInt32.toNat = s.pixelBytes ∧ 3 ≤ s.pixelBytes ∧ s.pixelBytes ≤ 4 := by
  rcases h.depth with hd | hd <;> rw [Screen.pixelBytes, hd] <;> decide

theorem Geometry.line_toNat {s : Screen} (h : Geometry s) {y : Int32}
    (hy : y.toUInt32.toNat < s.height.toNat) :
    (y.toUInt32 * s.pitch).toNat = y.toUInt32.toNat * s.pitch.toNat := by
  have hle : y.toUInt32.toNat * s.pitch.toNat ≤ s.height.toNat * s.pitch.toNat :=
    Nat.mul_le_mul_right _ hy.le
  have hb := h.bytes
  have hbn := h.bound
  grind

theorem Geometry.line_end {s : Screen} (h : Geometry s) {y : Nat} (hy : y < s.height.toNat) :
    y * s.pitch.toNat + s.pitch.toNat ≤ s.mapped_bytes.toNat := by
  have hle : (y + 1) * s.pitch.toNat ≤ s.height.toNat * s.pitch.toNat := Nat.mul_le_mul_right _ hy
  rw [h.bytes, Nat.mul_comm s.pitch.toNat]
  rwa [Nat.add_mul, Nat.one_mul] at hle

theorem Geometry.target_end {s : Screen} (h : Geometry s) (hr : Roomy s) {x y : Int32}
    (hs : s.Shows x y) : s.target x y + s.pixelBytes ≤ s.mapped_bytes.toNat := by
  simp only [Screen.Shows, not_or, ge_iff_le, UInt32.not_le, UInt32.lt_iff_toNat_lt] at hs
  obtain ⟨-, -, -, hx, hy⟩ := hs
  obtain ⟨hpixel, -, -⟩ := h.pixelBytes
  have he := h.line_end hy
  have hc : (x.toUInt32.toNat + 1) * s.pixelBytes ≤ s.width.toNat * s.pixelBytes :=
    Nat.mul_le_mul_right _ hx
  rw [Nat.add_mul, Nat.one_mul] at hc
  have hrm : s.width.toNat * s.pixelBytes ≤ s.pitch.toNat := hr
  have hlt := s.pitch.toNat_lt
  have ho : (x.toUInt32 * (s.bits_per_pixel / 8).toUInt32).toNat =
      x.toUInt32.toNat * s.pixelBytes := by grind
  grind [Screen.target]

/-- What holds along a run when there is room on the lines. -/
structure Safe (s : Screen) : Prop where
  geometry : Geometry s
  roomy : Roomy s
  contained : Contained s

theorem Safe.put_pixel (s : Screen) (x y : Int32) (color : UInt32) (h : Safe s) :
    Safe (framebuffer_put_pixel s x y color) := by
  by_cases hs : s.Shows x y
  · have hw := mem_pixel h.geometry.depth hs color
    have hen := h.geometry.target_end h.roomy hs
    have hc : ∀ e ∈ (framebuffer_put_pixel s x y color).written,
        e.1 < s.mapped_bytes.toNat := by
      intro e he
      rcases (hw e.1).mp ⟨e.2, he⟩ with ⟨byte, hold⟩ | hn
      · exact h.contained (e.1, byte) hold
      · omega
    unfold framebuffer_put_pixel at hc ⊢
    rw [if_neg hs] at hc ⊢
    exact ⟨⟨h.geometry.depth, h.geometry.bytes, h.geometry.bound⟩, h.roomy, hc⟩
  · unfold framebuffer_put_pixel
    rw [if_pos (not_not.mp hs)]
    exact h

theorem Geometry.small {s : Screen} (h : Geometry s) :
    0 < s.pitch.toNat ∧ s.pitch.toNat ≤ 64 * 1024 * 1024 ∧
      0 < s.height.toNat ∧ s.height.toNat ≤ 64 * 1024 * 1024 := by
  obtain ⟨hps, hm⟩ := h.bound
  rw [h.bytes] at hps hm
  have hp : 0 < s.pitch.toNat := Nat.pos_of_mul_pos_right hps
  have hh : 0 < s.height.toNat := Nat.pos_of_mul_pos_left hps
  exact ⟨hp, (Nat.le_mul_of_pos_right _ hh).trans hm, hh,
    (Nat.le_mul_of_pos_left _ hp).trans hm⟩

theorem Geometry.crossing_column {s : Screen} (h : Geometry s) (hn : ¬ Roomy s) :
    ∃ c < s.width.toNat, c * s.pixelBytes ≤ s.pitch.toNat ∧
      s.pitch.toNat < c * s.pixelBytes + s.pixelBytes := by
  obtain ⟨-, hp, -⟩ := h.pixelBytes
  have hd := Nat.div_mul_le_self s.pitch.toNat s.pixelBytes
  have hnx : s.pitch.toNat < s.pitch.toNat / s.pixelBytes * s.pixelBytes + s.pixelBytes :=
    Nat.lt_div_mul_add (by omega)
  refine ⟨s.pitch.toNat / s.pixelBytes, ?_, hd, hnx⟩
  by_contra hge
  have hle : s.width.toNat * s.pixelBytes ≤ s.pitch.toNat / s.pixelBytes * s.pixelBytes :=
    Nat.mul_le_mul_right _ (Nat.not_lt.mp hge)
  exact hn (hle.trans hd)

theorem int32_ofNat {n : Nat} (h : n < 2 ^ 31) :
    ¬ Int32.ofNat n < 0 ∧ (Int32.ofNat n).toUInt32.toNat = n := by
  constructor
  · rw [Int32.lt_iff_toInt_lt, Int32.toInt_ofNat_of_lt h]
    simp
  · rw [Int32.toUInt32_ofNat', UInt32.toNat_ofNat', Nat.mod_eq_of_lt (by omega)]

theorem Geometry.pixel_outside {s : Screen} (h : Geometry s) (ha : s.active ≠ 0)
    (hn : ¬ Roomy s) : ∃ x y, ¬ Contained (framebuffer_put_pixel s x y 0) := by
  obtain ⟨c, hw, hbg, he⟩ := h.crossing_column hn
  obtain ⟨hpt, hp, hh, hhg⟩ := h.small
  obtain ⟨hpixel, hps, -⟩ := h.pixelBytes
  have hcl : c ≤ c * s.pixelBytes := Nat.le_mul_of_pos_right _ (by omega)
  obtain ⟨hx, hxn⟩ := int32_ofNat (n := c) (by omega)
  obtain ⟨hy, hyn⟩ := int32_ofNat (n := s.height.toNat - 1) (by omega)
  have hs : s.Shows (Int32.ofNat c) (Int32.ofNat (s.height.toNat - 1)) := by
    grind [Screen.Shows, UInt32.not_le, UInt32.lt_iff_toNat_lt]
  have ht : s.target (Int32.ofNat c) (Int32.ofNat (s.height.toNat - 1)) =
      (s.height.toNat - 1) * s.pitch.toNat + c * s.pixelBytes := by
    rw [Screen.target, h.line_toNat (by omega), hyn, UInt32.toNat_mul, hxn, hpixel,
      Nat.mod_eq_of_lt (by omega)]
  have hl : (s.height.toNat - 1) * s.pitch.toNat + s.pitch.toNat = s.mapped_bytes.toNat := by
    rw [h.bytes, Nat.mul_comm s.pitch.toNat, ← Nat.succ_mul, Nat.succ_eq_add_one,
      Nat.sub_add_cancel hh]
  refine ⟨Int32.ofNat c, Int32.ofNat (s.height.toNat - 1), fun hc => ?_⟩
  obtain ⟨byte, hb⟩ := (mem_pixel h.depth hs 0 s.mapped_bytes.toNat).mpr
    (.inr ⟨by omega, by omega⟩)
  have hm : (framebuffer_put_pixel s (Int32.ofNat c)
      (Int32.ofNat (s.height.toNat - 1)) 0).mapped_bytes = s.mapped_bytes := by
    unfold framebuffer_put_pixel
    split <;> rfl
  have hlt := hc _ hb
  grind

/-! ## The screen after the set-up -/

section
variable {V : Type} {vmm_map_page : V → UInt64 → UInt64 → UInt64 → V × Int}

theorem framebuffer_init_spec {boot : Snapshot} {vmm : V}
    (h : (framebuffer_init vmm_map_page boot vmm).2.2 = 0) :
    ∃ b : UInt64, (framebuffer_init vmm_map_page boot vmm).2.1 =
        ⟨1, 1, boot.framebuffer.bits_per_pixel.toUInt8, boot.framebuffer.width,
          boot.framebuffer.height, boot.framebuffer.pitch, boot.framebuffer.address, b, 0, []⟩ ∧
      (boot.framebuffer.bits_per_pixel = 24 ∨ boot.framebuffer.bits_per_pixel = 32) ∧
      b.toNat = boot.framebuffer.pitch.toNat * boot.framebuffer.height.toNat ∧
      0 < b.toNat ∧ b.toNat ≤ 64 * 1024 * 1024 := by
  revert h
  fun_cases framebuffer_init vmm_map_page boot vmm
  case case1 => simp
  case case2 => simp
  case case3 => simp
  case case4 frame hf b hb physical offset pages vmm' hm =>
    intro _
    simp only [not_or, not_and_or, not_not] at hf hb
    have hpr : b.toNat = frame.pitch.toNat * frame.height.toNat := by
      have hp := frame.pitch.toNat_lt
      have hh := frame.height.toNat_lt
      have hlt : frame.pitch.toNat * frame.height.toNat < 2 ^ 32 * 2 ^ 32 :=
        Nat.mul_lt_mul'' hp hh
      grind
    grind

theorem framebuffer_init_geometry {boot : Snapshot} {vmm : V}
    (h : (framebuffer_init vmm_map_page boot vmm).2.2 = 0) :
    Geometry (framebuffer_init vmm_map_page boot vmm).2.1 ∧
      (framebuffer_init vmm_map_page boot vmm).2.1.active = 1 ∧
      Contained (framebuffer_init vmm_map_page boot vmm).2.1 ∧
      (Roomy (framebuffer_init vmm_map_page boot vmm).2.1 ↔
        boot.framebuffer.width.toNat * (boot.framebuffer.bits_per_pixel.toNat / 8) ≤
          boot.framebuffer.pitch.toNat) := by
  obtain ⟨b, hs, hd, hb, hp, hm⟩ := framebuffer_init_spec h
  rw [hs]
  refine ⟨⟨?_, hb, hp, hm⟩, rfl, fun _ he => absurd he List.not_mem_nil, ?_⟩
  · exact hd.imp (fun h24 => by simp [h24]) fun h32 => by simp [h32]
  · rcases hd with hd | hd <;> rw [Roomy, Screen.pixelBytes, hd] <;> rfl

/-- After a set-up that returns 0, every byte that any calls write lies in the mapped part exactly
when the pixels of a line fit into the pitch. -/
theorem writes_stay_inside_iff (vmm_map_page : V → UInt64 → UInt64 → UInt64 → V × Int)
    (boot : Snapshot) (vmm : V) (h : (framebuffer_init vmm_map_page boot vmm).2.2 = 0) :
    (∀ calls, Contained
      (runs.run Screen.step (framebuffer_init vmm_map_page boot vmm).2.1 calls)) ↔
    boot.framebuffer.width.toNat * (boot.framebuffer.bits_per_pixel.toNat / 8) ≤
      boot.framebuffer.pitch.toNat := by
  obtain ⟨hgeometry, hactive, hcontained, hroomy⟩ := framebuffer_init_geometry h
  rw [← hroomy]
  constructor
  · intro hall
    by_contra hnarrow
    obtain ⟨x, y, houtside⟩ := hgeometry.pixel_outside (by rw [hactive]; decide) hnarrow
    exact houtside (hall [Call.putPixel x y 0])
  · intro hroom calls
    have hsafe : Safe (framebuffer_init vmm_map_page boot vmm).2.1 := ⟨hgeometry, hroom, hcontained⟩
    exact (runs.run_keeps (fun s call hs => step_keeps Safe.put_pixel call hs) hsafe calls).contained

end

def mapAlways (vmm : Unit) (_ _ _ : UInt64) : Unit × Int := (vmm, 0)

/-- A block in memory with a framebuffer of 320 by 200 pixels of 32 bits and the given pitch. -/
def blockMemory (pitch : UInt32) : Mem :=
  place (fun _ => 0) 0x2000 (multiboot.blockWords 0x48 65536 0xFD000000 0 320 200 pitch 32 0 0)

def blockSnapshot (pitch : UInt32) : Snapshot :=
  snapshotOf (multiboot.blockInfo 0x48 65536 0xFD000000 0 320 200 pitch 32 0 0)

theorem a_full_pitch_is_safe :
    (framebuffer_init mapAlways (blockSnapshot 1280) ()).2.2 = 0 ∧
      ∀ calls, Contained
        (runs.run Screen.step (framebuffer_init mapAlways (blockSnapshot 1280) ()).2.1 calls) :=
  ⟨by decide +kernel, (writes_stay_inside_iff mapAlways (blockSnapshot 1280) ()
    (by decide +kernel)).mpr (by decide +kernel)⟩

/-- The capture and the set-up take a pitch of 4 bytes, with 800 bytes mapped, and the second pixel
of the last line is written at offset 800. -/
theorem a_short_pitch_is_left :
    (bootinfo_capture 0x2000 HANDOFF_MAGIC (blockMemory 4) cleared).1 =
        some (0, blockSnapshot 4) ∧
      (framebuffer_init mapAlways (blockSnapshot 4) ()).2.2 = 0 ∧
      ¬ Contained (framebuffer_put_pixel (framebuffer_init mapAlways (blockSnapshot 4) ()).2.1
        1 199 0) :=
  ⟨by decide +kernel, by decide +kernel, fun h =>
    absurd (h (800, 0) (by decide +kernel)) (by decide +kernel)⟩

end mvh.framebuffer
