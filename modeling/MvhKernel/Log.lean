-- The kernel log (log.c): a ring of 16384 characters that every record is put into, one
-- character after the other.
import MvhKernel.RingBuffer
import Mathlib.Data.Nat.Digits.Defs

open ring_buffer

namespace mvh.log

abbrev KLOG_CAPACITY : UInt32 := 16384

abbrev Text : Type := List Char

/-- The ring, and what was sent to the serial line and to the screen. -/
structure Log where
  log_buffer : Nat → Char
  log_start : UInt32
  log_length : UInt32
  console_enabled : UInt8
  console : List Char

/-! ## The calls -/

def log_put (s : Log) (value : Char) : Log :=
  let (position, s) :=
    if s.log_length < KLOG_CAPACITY then
      ((s.log_start + s.log_length) % KLOG_CAPACITY, { s with log_length := s.log_length + 1 })
    else (s.log_start, { s with log_start := (s.log_start + 1) % KLOG_CAPACITY })
  { s with
    log_buffer := Function.update s.log_buffer position.toNat value
    console := if s.console_enabled ≠ 0 then s.console ++ [value] else s.console }

def log_text (s : Log) (text : Text) : Log := text.foldl log_put s

/-- The digits of `log_number` in the order in which they are stored, with the places that are
left in the array. -/
def digitTurns : Nat → UInt64 → List Char → Option (List Char)
  | 0, value, digits => if value = 0 then some digits else none
  | room + 1, value, digits =>
    if value = 0 then some digits
    else digitTurns room (value / 10) (digits ++ [Char.ofNat ('0'.toNat + (value % 10).toNat)])

def log_number (s : Log) (value : UInt64) : Option Log :=
  if value = 0 then some (log_put s '0')
  else (digitTurns 21 value []).map fun digits => digits.reverse.foldl log_put s

def klog_init (s : Log) : Log := { s with log_start := 0, log_length := 0, console_enabled := 0 }

def klog_write_category (s : Log) (ticks : UInt64) (level category message : Text) : Option Log :=
  (log_number (log_put s '[') ticks).map fun s =>
    let s := log_put (log_put s ']') '['
    let s := log_put (log_put (log_text s level) ']') '['
    let s := log_put (log_put (log_text s category) ']') ' '
    log_put (log_text s message) '\n'

def klog_write (s : Log) (ticks : UInt64) (level message : Text) : Option Log :=
  klog_write_category s ticks level "kernel".toList message

def klog_set_console (s : Log) (enabled : UInt8) : Log := { s with console_enabled := enabled }

def klog_size (s : Log) : UInt32 := s.log_length

def copyLoop (s : Log) : Nat → UInt32 → (Nat → Char) → (Nat → Char)
  | 0, _, output => output
  | left + 1, index, output =>
    copyLoop s left (index + 1)
      (Function.update output index.toNat (s.log_buffer ((s.log_start + index) % KLOG_CAPACITY).toNat))

def klog_copy (s : Log) (output : Nat → Char) (capacity : UInt32) : UInt32 × (Nat → Char) :=
  if capacity = 0 then (0, output)
  else
    let count := if s.log_length ≥ capacity then capacity - 1 else s.log_length
    (count, Function.update (copyLoop s count.toNat 0 output) count.toNat '\x00')

/-! ## The ring -/

def Log.ring (s : Log) : Buffer Char := ⟨s.log_buffer, s.log_start.toNat, s.log_length.toNat⟩

def retained (s : Log) : List Char := contents 16384 s.ring

theorem ring_log_put {s : Log} (h : Valid 16384 s.ring) (value : Char) : (log_put s value).ring = put 16384 s.ring value := by
  grind [log_put, put, Log.ring]

/-- The characters went into the ring, one after the other. -/
structure Emits (s : Log) (chars : List Char) (s' : Log) : Prop where
  valid : Valid 16384 s'.ring
  ring : s'.ring = chars.foldl (put 16384) s.ring

section
variable {s s' s'' : Log} {chars more : List Char}

theorem Emits.nothing (h : Valid 16384 s.ring) : Emits s [] s := ⟨h, rfl⟩

theorem Emits.trans (h : Emits s chars s') (h' : Emits s' more s'') : Emits s (chars ++ more) s'' := by
  refine ⟨h'.valid, ?_⟩
  rw [h'.ring, h.ring, List.foldl_append]

theorem Emits.put (h : Emits s chars s') (v : Char) : Emits s (chars ++ [v]) (log_put s' v) := by
  have hr := ring_log_put h.valid v
  refine h.trans ⟨?_, hr⟩
  rw [hr]
  exact h.valid.put v

theorem Emits.text (h : Emits s chars s') (t : Text) : Emits s (chars ++ t) (log_text s' t) := by
  induction t generalizing chars s' with
  | nil =>
    rw [List.append_nil]
    exact h
  | cons v t ih =>
    have hn := ih (h.put v)
    rw [List.append_assoc, List.singleton_append] at hn
    exact hn

end

/-! ## Records -/

theorem digitChar_eq {d : Nat} (h : d < 10) : Char.ofNat ('0'.toNat + d) = d.digitChar := by
  revert d
  decide

theorem digitTurns_eq {r : Nat} {v : UInt64} (d : List Char) (hz : v ≠ 0)
    (hr : v.toNat < 10 ^ r) :
    digitTurns r v d = some (d ++ (Nat.toDigits 10 v.toNat).reverse) := by
  induction r generalizing v d with
  | zero => grind
  | succ r ih =>
    have hdv : (v / 10).toNat = v.toNat / 10 := UInt64.toNat_div _ _
    have hm : (v % 10).toNat = v.toNat % 10 := UInt64.toNat_mod _ _
    rw [digitTurns, if_neg hz, hm, digitChar_eq (Nat.mod_lt _ (by decide))]
    by_cases ho : v.toNat < 10
    · have hl : v / 10 = 0 := by grind
      have hd : digitTurns r 0 (d ++ [(v.toNat % 10).digitChar]) =
          some (d ++ [(v.toNat % 10).digitChar]) := by
        cases r <;> rfl
      grind [Nat.toDigits_of_lt_base, Nat.mod_eq_of_lt, List.reverse_singleton]
    · have hmr : v / 10 ≠ 0 := by grind
      grind [List.reverse_append, List.reverse_singleton, List.append_assoc, Nat.toDigits_of_base_le]

theorem log_number_emits {s s' : Log} {chars : List Char} (h : Emits s chars s') (v : UInt64) :
    ∃ after, log_number s' v = some after ∧ Emits s (chars ++ Nat.toDigits 10 v.toNat) after := by
  unfold log_number
  by_cases hz : v = 0
  · rw [if_pos hz, hz]
    exact ⟨_, rfl, h.put '0'⟩
  · have hs : v.toNat < 10 ^ 21 := by grind
    rw [if_neg hz, digitTurns_eq [] hz hs, List.nil_append]
    refine ⟨log_text s' (Nat.toDigits 10 v.toNat), ?_, h.text _⟩
    rw [Option.map_some, List.reverse_reverse]
    rfl

def record (ticks : UInt64) (level category message : Text) : List Char :=
  ['['] ++ Nat.toDigits 10 ticks.toNat ++ [']'] ++ ['['] ++ level ++ [']'] ++ ['['] ++ category ++ [']'] ++ [' '] ++
    message ++ ['\n']

theorem klog_write_category_emits {s : Log} (h : Valid 16384 s.ring) (t : UInt64) (l c m : Text) :
    ∃ s', klog_write_category s t l c m = some s' ∧
      Emits s (record t l c m) s' := by
  obtain ⟨after, hn, he⟩ := log_number_emits ((Emits.nothing h).put '[') t
  unfold klog_write_category
  rw [hn]
  refine ⟨_, rfl, ?_⟩
  have hl := (((he.put ']').put '[').text l)
  have hc := (((hl.put ']').put '[').text c)
  exact (((hc.put ']').put ' ').text m).put '\n'

/-! ## Runs -/

inductive Call
  | write (ticks : UInt64) (level message : Text)
  | write_category (ticks : UInt64) (level category message : Text)
  | set_console (enabled : UInt8)

def step (s : Log) : Call → Option Log
  | .write ticks level message => klog_write s ticks level message
  | .write_category ticks level category message => klog_write_category s ticks level category message
  | .set_console enabled => some (klog_set_console s enabled)

def runCalls (s : Log) : List Call → Option Log
  | [] => some s
  | call :: calls => (step s call).bind (runCalls · calls)

def emitted : Call → List Char
  | .write ticks level message => record ticks level "kernel".toList message
  | .write_category ticks level category message => record ticks level category message
  | .set_console _ => []

theorem step_emits {s : Log} (h : Valid 16384 s.ring) (cl : Call) : ∃ s', step s cl = some s' ∧ Emits s (emitted cl) s' := by
  cases cl with
  | write t l m => exact klog_write_category_emits h t l _ m
  | write_category t l c m => exact klog_write_category_emits h t l c m
  | set_console e => exact ⟨_, rfl, h, rfl⟩

theorem run_emits {s : Log} (h : Valid 16384 s.ring) (c : List Call) :
    ∃ s', runCalls s c = some s' ∧ Emits s (c.flatMap emitted) s' := by
  induction c generalizing s with
  | nil => exact ⟨s, rfl, .nothing h⟩
  | cons cl c ih =>
    obtain ⟨s1, hs, he⟩ := step_emits h cl
    obtain ⟨s2, hrn, hr⟩ := ih he.valid
    refine ⟨s2, ?_, ?_⟩
    · rw [runCalls, hs]
      exact hrn
    · rw [List.flatMap_cons]
      exact he.trans hr

/-! ## The copy -/

theorem copyLoop_eq {s : Log} (h : Valid 16384 s.ring) {left : Nat} {index : UInt32} (o : Nat → Char)
    (hlf : index.toNat + left ≤ s.log_length.toNat) (i : Nat) :
    copyLoop s left index o i =
      if index.toNat ≤ i ∧ i < index.toNat + left then s.log_buffer ((s.log_start.toNat + i) % 16384) else o i := by
  have hs : s.log_start.toNat < 16384 := h.start
  have hl : s.log_length.toNat ≤ 16384 := h.length
  induction left generalizing index o with
  | zero => exact (if_neg (by omega)).symm
  | succ left ih =>
    have hn : (index + 1).toNat = index.toNat + 1 := by grind
    have hsm : (s.log_start + index).toNat = s.log_start.toNat + index.toNat := by grind
    have hc : KLOG_CAPACITY.toNat = 16384 := rfl
    rw [copyLoop, ih _ (by omega), hn, UInt32.toNat_mod, hsm, hc]
    grind

theorem klog_copy_eq {s : Log} (h : Valid 16384 s.ring) (o : Nat → Char) {c : UInt32} (hc : c ≠ 0) :
    ∃ cn o', klog_copy s o c = (cn, o') ∧
      cn.toNat = min s.log_length.toNat (c.toNat - 1) ∧
      (List.range cn.toNat).map o' = (retained s).take cn.toNat ∧ o' cn.toNat = '\x00' := by
  have hp : 0 < c.toNat := by grind
  have hl : (c - 1).toNat = c.toNat - 1 := by grind
  have hcn : (if s.log_length ≥ c then c - 1 else s.log_length).toNat =
      min s.log_length.toNat (c.toNat - 1) := by grind
  unfold klog_copy
  rw [if_neg hc]
  dsimp only
  generalize (if s.log_length ≥ c then c - 1 else s.log_length) = cn at hcn ⊢
  refine ⟨cn, _, rfl, hcn, ?_, Function.update_self ..⟩
  have ht : (retained s).take cn.toNat =
      (List.range cn.toNat).map fun i => s.log_buffer ((s.log_start.toNat + i) % 16384) := by
    show ((List.range s.log_length.toNat).map fun i => s.log_buffer ((s.log_start.toNat + i) % 16384)).take cn.toNat = _
    rw [← List.map_take, List.take_range, Nat.min_eq_left (by omega)]
  rw [ht]
  refine List.map_congr_left fun i hi => ?_
  have hi := List.mem_range.mp hi
  grind [Function.update_of_ne, copyLoop_eq]

/-- After `klog_init` and any calls, the log is the end of all that was emitted, `klog_size` is its
length, and `klog_copy` gives its front and a NUL. -/
theorem the_log_is_the_end_of_the_records (before : Log) (calls : List Call) :
    ∃ s, runCalls (klog_init before) calls = some s ∧
      retained s = (calls.flatMap emitted).rtake 16384 ∧
      (klog_size s).toNat = min (calls.flatMap emitted).length 16384 ∧
      ∀ (output : Nat → Char) (capacity : UInt32), capacity ≠ 0 →
        ∃ count output', klog_copy s output capacity = (count, output') ∧
          count.toNat = min (klog_size s).toNat (capacity.toNat - 1) ∧
          (List.range count.toNat).map output' = (retained s).take count.toNat ∧ output' count.toNat = '\x00' := by
  have hempty : Valid 16384 (klog_init before).ring := ⟨show 0 < 16384 by decide, Nat.zero_le _⟩
  obtain ⟨s, hrun, hemits⟩ := run_emits hempty calls
  have hretained : retained s = (calls.flatMap emitted).rtake 16384 := by
    rw [retained, hemits.ring, contents_puts hempty]
    rfl
  refine ⟨s, hrun, hretained, ?_, fun output capacity hcapacity => klog_copy_eq hemits.valid output hcapacity⟩
  have hlength := congrArg List.length hretained
  rw [retained, length_contents, List.rtake, List.length_drop] at hlength
  show s.log_length.toNat = _
  have hsize : s.log_length.toNat = (calls.flatMap emitted).length - ((calls.flatMap emitted).length - 16384) := hlength
  omega

end mvh.log
