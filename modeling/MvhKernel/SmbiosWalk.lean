-- The SMBIOS table as a format: structures one after the other, each with its own length
-- in front and a set of strings behind it that two NULs end.
import MvhKernel.Smbios
import MvhKernel.ByteLists
import MvhKernel.CStrings
import MvhKernel.Pieces

open flat_memory ranges scan pieces c_strings

namespace mvh.smbios

/-! ## The format -/

def doubleNul : List UInt8 → Option Nat
  | 0 :: 0 :: _ => some 0
  | _ :: rest => (doubleNul rest).map (· + 1)
  | [] => none

/-- A structure has its length, which is at least 4, in the second byte. -/
def structureSize (l : List UInt8) : Option Nat :=
  let length := (ofList l 1).toNat
  if 4 ≤ length ∧ length ≤ l.length then (doubleNul (l.drop length)).map (length + · + 2) else none

theorem doubleNul_cons (b : UInt8) (l : List UInt8) :
    doubleNul (b :: l) = if b = 0 ∧ l.head? = some 0 then some 0 else (doubleNul l).map (· + 1) := by
  rcases l with _ | ⟨c, l⟩
  · simp [doubleNul]
  · by_cases h : b = 0 ∧ c = 0
    · obtain ⟨rfl, rfl⟩ := h
      simp [doubleNul]
    · rw [if_neg (by simpa using h)]
      rw [doubleNul]
      rintro rest rfl heq
      cases heq
      exact h ⟨rfl, rfl⟩

theorem doubleNul_le {l : List UInt8} {k : Nat} (h : doubleNul l = some k) : k + 2 ≤ l.length := by
  induction l generalizing k with
  | nil => cases h
  | cons b l ih =>
    rw [doubleNul_cons] at h
    split at h
    next hz =>
      cases h
      cases l with
      | nil => cases hz.2
      | cons c l => simp
    · obtain ⟨j, hj, rfl⟩ := Option.map_eq_some_iff.mp h
      have hle := ih hj
      rw [List.length_cons]
      omega

theorem doubleNul_take {l : List UInt8} {k : Nat} (h : doubleNul l = some k) (rest : List UInt8) :
    doubleNul (l.take (k + 2) ++ rest) = some k := by
  induction l generalizing k with
  | nil => cases h
  | cons b l ih =>
    have hle := doubleNul_le h
    rw [doubleNul_cons] at h
    rw [List.take_succ_cons, List.cons_append, doubleNul_cons]
    have hh : (l.take (k + 1) ++ rest).head? = l.head? := by
      cases l with
      | nil => simp at hle
      | cons c l => rfl
    rw [hh]
    split at h
    next hz => rw [if_pos hz, h]
    next hz =>
      obtain ⟨j, hj, rfl⟩ := Option.map_eq_some_iff.mp h
      rw [if_neg hz, ih hj]
      rfl

theorem structureSize_some {l : List UInt8} {n : Nat} (h : structureSize l = some n) :
    4 ≤ (ofList l 1).toNat ∧ (ofList l 1).toNat ≤ l.length ∧
      ∃ k, doubleNul (l.drop (ofList l 1).toNat) = some k ∧ n = (ofList l 1).toNat + k + 2 := by
  by_cases hf : 4 ≤ (ofList l 1).toNat ∧ (ofList l 1).toNat ≤ l.length
  · rw [structureSize, if_pos hf] at h
    obtain ⟨k, hk, rfl⟩ := Option.map_eq_some_iff.mp h
    exact ⟨hf.1, hf.2, k, hk, rfl⟩
  · rw [structureSize, if_neg hf] at h
    cases h

def structureFormat : Format UInt8 where
  size := structureSize
  pos h := by
    obtain ⟨_, _, k, _, rfl⟩ := structureSize_some h
    omega
  le h := by
    obtain ⟨_, hlength, k, hk, rfl⟩ := structureSize_some h
    have hle := doubleNul_le hk
    rw [List.length_drop] at hle
    omega
  stable h rest := by
    obtain ⟨hfour, hlength, k, hk, rfl⟩ := structureSize_some h
    have hle := doubleNul_le hk
    rw [List.length_drop] at hle
    generalize hn : (ofList _ 1).toNat = n at *
    rename_i l
    have hone : ofList (l.take (n + k + 2) ++ rest) 1 = ofList l 1 := by
      unfold ofList
      rw [List.getD_append _ _ _ _ (by rw [List.length_take]; omega), List.getD_eq_getElem?_getD,
        List.getElem?_take_of_lt (by omega), ← List.getD_eq_getElem?_getD]
    have hdrop : (l.take (n + k + 2) ++ rest).drop n = (l.drop n).take (k + 2) ++ rest := by
      rw [List.drop_append_of_le_length (by rw [List.length_take]; omega), List.drop_take]
      congr 2
      omega
    rw [structureSize, hone, hn, hdrop, doubleNul_take hk]
    rw [if_pos ⟨hfour, by rw [List.length_append, List.length_take]; omega⟩]
    rfl

theorem structure_long {p : List UInt8} (h : structureFormat.IsPiece p) : 6 ≤ p.length := by
  obtain ⟨hf, _, k, _, hl⟩ := structureSize_some h
  omega

section
variable (p : List UInt8)

def structureType : UInt8 := ofList p 0

def structureLength : Nat := (ofList p 1).toNat

def stringArea : List UInt8 := (p.drop (structureLength p)).take (p.length - structureLength p - 2)

end

/-- A NUL ends each string, and the set of strings ends where the next one would be empty. -/
def stringsOf (area : List UInt8) : List (List UInt8) := (area.splitOn 0).takeWhile (· ≠ [])

def stringNumber (area : List UInt8) (number : UInt8) : List UInt8 :=
  if number = 0 then [] else ((stringsOf area)[number.toNat - 1]?).getD []

def printed (string : List UInt8) : List Char := (string.take 63).map printable

def Text.type : Text → UInt8
  | .bios_vendor => 0
  | .bios_version => 0
  | .system_manufacturer => 1
  | .system_product => 1
  | .system_version => 1
  | .system_serial => 1
  | .baseboard_manufacturer => 2
  | .baseboard_product => 2

def Text.least (text : Text) : Nat := if text.type = 1 then 8 else 6

def Text.place : Text → Nat
  | .bios_vendor => 4
  | .bios_version => 5
  | .system_manufacturer => 4
  | .system_product => 5
  | .system_version => 6
  | .system_serial => 7
  | .baseboard_manufacturer => 4
  | .baseboard_product => 5

def Text.heldBy (text : Text) (p : List UInt8) : Bool := structureType p = text.type ∧ text.least ≤ structureLength p

def Text.inStructure (text : Text) (p : List UInt8) : List Char :=
  printed (stringNumber (stringArea p) (ofList p text.place))

def Text.inTable (text : Text) (structures : List (List UInt8)) : List Char :=
  ((structures.filter text.heldBy).getLast?.map text.inStructure).getD []

/-- The kinds of structures that are counted. -/
inductive Kind
  | bios
  | system
  | baseboard
  | processor
  | memory_device

def Kind.type : Kind → UInt8
  | .bios => 0
  | .system => 1
  | .baseboard => 2
  | .processor => 4
  | .memory_device => 17

def Kind.counter : Kind → Info → UInt32
  | .bios => Info.bios_structures
  | .system => Info.system_structures
  | .baseboard => Info.baseboard_structures
  | .processor => Info.processor_structures
  | .memory_device => Info.memory_device_structures

/-- The result says what is in these structures. -/
structure Describes (s : Info) (structures : List (List UInt8)) : Prop where
  parsed : s.parsed_structures.toNat = structures.length
  counts : ∀ kind : Kind, (kind.counter s).toNat = structures.countP (structureType · = kind.type)
  texts : ∀ text : Text, Spells (s.texts text) (text.inTable structures)

def Unmarked (structures : List (List UInt8)) : Prop := ∀ p ∈ structures, structureType p ≠ 127

def Marked (structures : List (List UInt8)) : Prop :=
  ∃ before last, structures = before ++ [last] ∧ structureType last = 127 ∧ Unmarked before

/-- The table begins with these structures. -/
structure Walk (announced : Nat) (table : List UInt8) (structures : List (List UInt8)) (rest : List UInt8) : Prop where
  cuts : structureFormat.Cuts table structures rest
  stops : Marked structures ∨ (announced ≠ 0 ∧ rest.length < 4 ∧ Unmarked structures)
  number : announced ≠ 0 → structures.length = announced

/-! ## Strings -/

theorem stringsOf_nil : stringsOf [] = [] := rfl

theorem stringsOf_nul (rest : List UInt8) : stringsOf (0 :: rest) = [] := by
  have hs : (0 :: rest).splitOn 0 = [] :: rest.splitOn 0 := by simp [List.splitOn, List.splitOnP_cons_eq_if_modifyHead]
  rw [stringsOf, hs]
  rfl

theorem stringsOf_last {word : List UInt8} (hne : word ≠ []) (hw : 0 ∉ word) : stringsOf word = [word] := by
  have hs : word.splitOn 0 = [word] := by
    refine List.splitOnP_eq_singleton fun b hb => ?_
    grind
  rw [stringsOf, hs]
  simp [hne]

theorem stringsOf_append {word : List UInt8} (hne : word ≠ []) (hw : 0 ∉ word) (rest : List UInt8) :
    stringsOf (word ++ 0 :: rest) = word :: stringsOf rest := by
  have hs : word.splitOnP (· == 0) = [word] := by grind [List.splitOnP_eq_singleton]
  have hsp : (word ++ 0 :: rest).splitOn 0 = word :: rest.splitOn 0 := by
    simp [List.splitOn, List.splitOnP_append_cons, hs]
  grind [stringsOf, List.takeWhile_cons_of_pos]

theorem printable_ne_nul (v : UInt8) : printable v ≠ '\x00' := by
  unfold printable
  split
  next h =>
    intro hn
    have hl : 0x20 ≤ v.toNat := UInt8.le_iff_toNat_le.mp h.1
    have hh : v.toNat ≤ 0x7E := UInt8.le_iff_toNat_le.mp h.2
    have hc := congrArg Char.toNat hn
    grind [Char.toNat_ofNat]
  · decide

theorem printed_clean (string : List UInt8) : '\x00' ∉ printed string := by
  unfold printed
  grind [List.mem_map, printable_ne_nul]

@[simp] theorem Info.texts_setText (s : Info) (o : Text) (chars : Nat → Char) :
    (s.setText o chars).texts o = chars := Function.update_self ..

@[simp] theorem Info.setText_setText (s : Info) (o : Text) (c more : Nat → Char) :
    (s.setText o c).setText o more = s.setText o more := by
  simp [Info.setText]

theorem Info.setText_texts (s : Info) (o : Text) : s.setText o (s.texts o) = s := by
  simp [Info.setText]

section
variable {ok : Range → Prop} {m : Mem} {s : Info}

/-- The array that a program writes for one field holds a text then. -/
abbrev WritesText (ok : Range → Prop) (m : Mem) (s : Info) (output : Text) (text : List Char) (x : Scan Info Unit) :
    Prop :=
  Meets ok m s x fun _ s' => ∃ chars, Spells chars text ∧ s' = s.setText output chars

theorem copyChars_meets {o : Text} {t index left : Nat} {done : List Char}
    (hd : Begins (s.texts o) done) (hi : done.length = index)
    (hok : ∀ a, t + index ≤ a → a < t + index + left → ok ⟨a, 1⟩) :
    Meets ok m s (copyChars o t index left) fun _ s' => ∃ chars,
      Begins chars (done ++ (slice m (t + index) left).map printable) ∧ s' = s.setText o chars := by
  induction left generalizing s index done with
  | zero =>
    refine meets_pure ⟨s.texts o, ?_, (s.setText_texts o).symm⟩
    grind
  | succ left ih =>
    refine meets_byte (hok _ (le_refl _) (by omega)) (meets_modify ?_)
    have hw : Begins ((s.write o index (printable (m (t + index)))).texts o)
        (done ++ [printable (m (t + index))]) := by
      have hs := hd.snoc (printable (m (t + index)))
      simpa [hi, Info.write, Info.texts_setText] using hs
    refine (ih hw ?_ ?_).mono ?_
    · grind
    · grind
    grind [Info.write, Info.setText_setText, slice_succ, List.map_cons, List.append_assoc, List.singleton_append]

theorem copy_text_meets {o : Text} {t : Nat} {length : UInt32}
    (hok : ∀ a, t ≤ a → a < t + length.toNat → ok ⟨a, 1⟩) :
    WritesText ok m s o (printed (slice m t length.toNat)) (copy_text o t length) := by
  unfold copy_text
  extract_lets count
  have hcn : count.toNat = min 63 length.toNat := by
    have hm : SMBIOS_TEXT_MAX.toNat = 64 := rfl
    grind
  have hp : printed (slice m t length.toNat) = (slice m t count.toNat).map printable := by
    grind [printed, List.take_eq_take_min, slice_length, slice_take]
  have hl : (printed (slice m t length.toNat)).length = count.toNat := by
    rw [hp, List.length_map, slice_length]
  refine meets_bind (copyChars_meets (begins_nil _) rfl fun a hlw hh => hok a (by omega) (by omega)) ?_
  rintro _ s' ⟨c, hc, rfl⟩
  rw [List.nil_append, Nat.add_zero, ← hp] at hc
  refine meets_change ⟨Function.update c count.toNat '\x00', ?_, by rw [Info.write, Info.texts_setText, Info.setText_setText]⟩
  rw [← hl]
  exact hc.finish (printed_clean _)

theorem textEnd_meets {cursor left : Nat} (hok : ∀ a, cursor ≤ a → a < cursor + left → ok ⟨a, 1⟩) :
    Meets ok m s (textEnd cursor left) fun st s' => s' = s ∧ ∃ n, st = cursor + n ∧ n ≤ left ∧
      0 ∉ slice m cursor n ∧ (n < left → m st = 0) := by
  induction left generalizing cursor with
  | zero => exact meets_pure ⟨rfl, 0, rfl, le_refl 0, List.not_mem_nil, nofun⟩
  | succ left ih =>
    refine meets_byte (hok _ (le_refl _) (by omega)) (meets_ite (fun hs => ?_) fun hn => meets_pure ?_)
    · refine (ih fun a hl hh => hok a (by omega) (by omega)).mono ?_
      grind [slice_succ, List.mem_cons]
    grind

theorem stringsOf_first {cursor n left : Nat} (hn : 0 < n) (hle : n ≤ left) (hc : 0 ∉ slice m cursor n)
    (hs : n < left → m (cursor + n) = 0) :
    stringsOf (slice m cursor left) = slice m cursor n ::
      stringsOf (slice m (if n < left then cursor + n + 1 else cursor + n) (if n < left then left - n - 1 else left - n)) := by
  have hne : slice m cursor n ≠ [] := List.ne_nil_of_length_pos (by rw [slice_length]; exact hn)
  obtain ⟨more, rfl⟩ := Nat.exists_eq_add_of_le hle
  rw [slice_append]
  cases more with
  | zero =>
    rw [if_neg (by omega), if_neg (by omega), slice_zero, List.append_nil, stringsOf_last hne hc, Nat.add_zero,
      Nat.sub_self, slice_zero, stringsOf_nil]
  | succ more => grind [slice_succ, stringsOf_append]

theorem copy_structure_string_meets {fuel : Nat} {o : Text} {st finish : Nat} {w : UInt8}
    (hle : st ≤ finish) (hsm : finish - st ≤ 1024 * 1024) (hfl : 1024 * 1024 < fuel)
    (hok : ∀ a, st ≤ a → a < finish → ok ⟨a, 1⟩) :
    WritesText ok m s o (printed (stringNumber (slice m st (finish - st)) w))
      (copy_structure_string fuel o st finish w) := by
  unfold copy_structure_string
  refine meets_modify ?_
  -- the text is empty until the string is found
  have he : ∃ chars, Spells chars (printed []) ∧ Info.write o 0 '\x00' s = s.setText o chars :=
    ⟨_, spells_nil (Function.update_self ..), rfl⟩
  generalize Info.write o 0 '\x00' s = cleared at *
  refine meets_ite (fun hz => meets_pure ?_) fun hw => ?_
  · grind [stringNumber]
  have hps : 1 ≤ w.toNat := by grind
  have hms := w.toNat_lt
  -- the w string, counted from the one that is looked at
  let invariant (ar : Nat × UInt8) (now : Info) : Prop :=
    st ≤ ar.1 ∧ ar.1 ≤ finish ∧ 1 ≤ ar.2.toNat ∧ ar.2.toNat ≤ w.toNat ∧
      now = cleared ∧ stringNumber (slice m st (finish - st)) w =
        ((stringsOf (slice m ar.1 (finish - ar.1)))[w.toNat - ar.2.toNat]?).getD []
  refine meets_loop invariant (fun ar => finish - ar.1) ?_
    ⟨le_refl _, hle, le_refl 1, hps, rfl, ?_⟩ (show finish - st < fuel by omega)
  swap
  · rw [stringNumber, if_neg hw]
    rfl
  rintro ⟨cursor, c⟩ now ⟨hlw, hh, ho, hc, rfl, hs⟩
  dsimp only at hlw hh ho hc hs
  unfold stringTurn
  dsimp only
  refine meets_ite (fun hen => meets_pure ?_) fun hm => ?_
  · have hlf : finish - cursor = 0 := by omega
    grind [slice_zero, stringsOf_nil]
  rw [not_not] at hm
  refine meets_byte (hok cursor hlw hm) (meets_ite (fun hnl => meets_pure ?_) fun hso => ?_)
  · obtain ⟨left, hlf⟩ : ∃ left, finish - cursor = left + 1 := ⟨finish - cursor - 1, by omega⟩
    grind [slice_succ, stringsOf_nul]
  refine meets_bind (textEnd_meets fun a h1 h2 => hok a (by omega) (by omega)) ?_
  rintro sp now ⟨rfl, n, rfl, hn, hcl, hst⟩
  have hp : 0 < n := by grind
  rw [stringsOf_first hp hn hcl hst] at hs
  refine meets_ite (fun hf => ?_) fun hot => meets_pure ?_
  · have hl : (UInt32.ofNat (cursor + n - cursor)).toNat = n := by grind
    refine meets_bind (copy_text_meets fun a h1 h2 => hok a (by omega) (by omega)) fun _ after hcp => meets_pure ?_
    obtain ⟨chars, hch, rfl⟩ := hcp
    obtain ⟨b, _, rfl⟩ := he
    rw [hl] at hch
    refine ⟨chars, ?_, Info.setText_setText ..⟩
    grind
  · have hls : c.toNat < w.toNat := by grind
    have hnx : (c + 1).toNat = c.toNat + 1 := by grind
    obtain ⟨k, hk⟩ : ∃ k, w.toNat - c.toNat = k + 1 := ⟨w.toNat - c.toNat - 1, by omega⟩
    have hk' : w.toNat - (c + 1).toNat = k := by omega
    have hl' : 1 ≤ (c + 1).toNat := by omega
    have hh' : (c + 1).toNat ≤ w.toNat := by omega
    rw [hk, List.getElem?_cons_succ] at hs
    grind

end

/-! ## One structure -/

/-- The structure at an address, with its strings up to `cursor`. -/
structure StructureAt (m : Mem) (data : Nat) (type length : UInt8) (cursor : Nat) (p : List UInt8) : Prop where
  eq : p = slice m data (cursor + 2 - data)
  typeByte : m data = type
  lengthByte : m (data + 1) = length
  four : 4 ≤ length.toNat
  strings : data + length.toNat ≤ cursor

section
variable {m : Mem} {data cursor : Nat} {type length : UInt8} {p : List UInt8} (h : StructureAt m data type length cursor p)
include h

theorem StructureAt.byte {i : Nat} (hi : data + i < cursor + 2) : ofList p i = m (data + i) := by
  rw [h.eq, ofList_slice m data (by omega)]

theorem StructureAt.type_eq : structureType p = type := by
  have hs := h.strings
  rw [structureType, h.byte (by omega)]
  exact h.typeByte

theorem StructureAt.length_eq : structureLength p = length.toNat := by
  have hs := h.strings
  have hf := h.four
  rw [structureLength, h.byte (by omega), h.lengthByte]

theorem StructureAt.area_eq : stringArea p = slice m (data + length.toNat) (cursor - (data + length.toNat)) := by
  have hs := h.strings
  rw [stringArea, h.length_eq, h.eq, slice_length, slice_drop m data (by omega), slice_take m _ (by omega)]
  congr 1
  omega

end

/-- The fields in the list are copied from the structure, and nothing else has changed. -/
def Copied (s : Info) (p : List UInt8) (fields : List Text) (s' : Info) : Prop :=
  ∃ texts, s' = { s with texts := texts } ∧ (∀ text ∈ fields, Spells (texts text) (text.inStructure p)) ∧
    ∀ text, text ∉ fields → texts text = s.texts text

theorem Copied.nothing (s : Info) (p : List UInt8) : Copied s p [] s :=
  ⟨s.texts, rfl, fun _ h => absurd h List.not_mem_nil, fun _ _ => rfl⟩

theorem Copied.snoc {s s' : Info} {p : List UInt8} {f : List Text} (h : Copied s p f s') {tx : Text}
    {c : Nat → Char} (hch : Spells c (tx.inStructure p)) :
    Copied s p (f ++ [tx]) (s'.setText tx c) := by
  obtain ⟨t, rfl, hc, hk⟩ := h
  refine ⟨Function.update t tx c, rfl, fun o ho => ?_, fun o ho => ?_⟩
  · grind
  grind

/-- The walk has counted the structure, and copied the texts that it holds. -/
structure Handled (s : Info) (p : List UInt8) (s' : Info) : Prop where
  parsed : s'.parsed_structures = s.parsed_structures
  counts : ∀ kind : Kind,
    kind.counter s' = if structureType p = kind.type then kind.counter s + 1 else kind.counter s
  written : ∀ text : Text, text.heldBy p = true → Spells (s'.texts text) (text.inStructure p)
  kept : ∀ text : Text, text.heldBy p = false → s'.texts text = s.texts text

/-- Nothing has changed that is counted or copied. -/
structure Unchanged (s s' : Info) : Prop where
  parsed : s'.parsed_structures = s.parsed_structures
  counts : ∀ kind : Kind, kind.counter s' = kind.counter s
  texts : s'.texts = s.texts

theorem Unchanged.trans {s s' s'' : Info} (h : Unchanged s s') (h' : Unchanged s' s'') : Unchanged s s'' :=
  ⟨h'.parsed.trans h.parsed, fun k => (h'.counts k).trans (h.counts k), h'.texts.trans h.texts⟩

theorem Handled.unchanged {s s' s'' : Info} {p : List UInt8} (h : Handled s p s') (h' : Unchanged s' s'') :
    Handled s p s'' where
  parsed := h'.parsed.trans h.parsed
  counts kind := (h'.counts kind).trans (h.counts kind)
  written text htext := by
    rw [h'.texts]
    exact h.written text htext
  kept text htext := by
    rw [h'.texts]
    exact h.kept text htext

def Kind.count : Kind → Info → Info
  | .bios => fun s => { s with bios_structures := s.bios_structures + 1 }
  | .system => fun s => { s with system_structures := s.system_structures + 1 }
  | .baseboard => fun s => { s with baseboard_structures := s.baseboard_structures + 1 }
  | .processor => fun s => { s with processor_structures := s.processor_structures + 1 }
  | .memory_device => fun s => { s with memory_device_structures := s.memory_device_structures + 1 }

theorem Kind.counter_count (k o : Kind) (s : Info) :
    o.counter (k.count s) = if k.type = o.type then o.counter s + 1 else o.counter s := by
  cases k <;> cases o <;> rfl

theorem Copied.handled {s s' : Info} {p : List UInt8} {f : List Text} (k : Kind)
    (h : Copied (k.count s) p f s') (hty : structureType p = k.type)
    (hf : ∀ tx : Text, tx ∈ f ↔ tx.heldBy p = true) : Handled s p s' := by
  obtain ⟨t, rfl, hcp, hk⟩ := h
  have hc : (k.count s).parsed_structures = s.parsed_structures ∧ (k.count s).texts = s.texts := by
    cases k <;> exact ⟨rfl, rfl⟩
  refine ⟨hc.1, fun o => ?_, fun tx ht => hcp tx ((hf tx).mpr ht), fun tx ht => ?_⟩
  · rw [hty, ← k.counter_count o s]
    cases o <;> rfl
  grind

section
variable {ok : Range → Prop} {m : Mem} {s : Info} {data cursor : Nat} {type length : UInt8} {p : List UInt8}

theorem parse_memory_device_meets (hok : ∀ a n, data ≤ a → a + n ≤ data + length.toNat → ok ⟨a, n⟩) :
    Meets ok m s (parse_memory_device data length) fun _ s' =>
      Unchanged { s with memory_device_structures := s.memory_device_structures + 1 } s' := by
  have hle {k : UInt8} (hk : length ≥ k) : k.toNat ≤ length.toNat := UInt8.le_iff_toNat_le.mp hk
  refine meets_modify ?_
  generalize ({ s with memory_device_structures := s.memory_device_structures + 1 } : Info) = s1
  have hsm : Unchanged s1 s1 := ⟨rfl, fun _ => rfl, rfl⟩
  refine meets_ite (fun _ => meets_pure hsm) fun hl => ?_
  have hl : 14 ≤ length.toNat := by grind
  refine meets_word16 (hok _ _ (by omega) (by omega)) ?_
  refine meets_ite (fun _ => meets_pure hsm) fun _ => ?_
  have hsz : Meets ok m s1 (if load16 m (data + 12) = 0x7FFF ∧ length ≥ 32 then do
        let extended ← word32 (data + 28)
        pure (extended &&& 0x7FFFFFFF).toUInt64
      else if load16 m (data + 12) &&& 0x8000 ≠ 0 then pure ((load16 m (data + 12) &&& 0x7FFF).toUInt64 / 1024)
      else pure (load16 m (data + 12)).toUInt64 : Scan Info UInt64) fun _ s' => s' = s1 := by
    refine meets_ite (fun he => ?_) fun _ => meets_ite (fun _ => meets_pure rfl) fun _ => meets_pure rfl
    have he : 32 ≤ length.toNat := hle he.2
    exact meets_word32 (hok _ _ (by omega) (by omega)) (meets_pure rfl)
  refine meets_bind hsz fun sz now hn => ?_
  rw [hn]
  refine meets_modify ?_
  have hp : Unchanged s1 { s1 with populated_memory_devices := s1.populated_memory_devices + 1 } :=
    ⟨rfl, fun kn => by cases kn <;> rfl, rfl⟩
  generalize ({ s1 with populated_memory_devices := s1.populated_memory_devices + 1 } : Info) = s2 at hp ⊢
  refine meets_modify ?_
  have hi : Unchanged s2 (if s2.installed_memory_mib ≤ 0xFFFFFFFFFFFFFFFF - sz then
      { s2 with installed_memory_mib := s2.installed_memory_mib + sz } else s2) := by
    split
    · exact ⟨rfl, fun kn => by cases kn <;> rfl, rfl⟩
    · exact ⟨rfl, fun _ => rfl, rfl⟩
  generalize (if s2.installed_memory_mib ≤ 0xFFFFFFFFFFFFFFFF - sz then
    ({ s2 with installed_memory_mib := s2.installed_memory_mib + sz } : Info) else s2) = s3 at hi ⊢
  have hs : Meets ok m s3 (if length ≥ 23 then word16 (data + 21) else pure 0 : Scan Info UInt16)
      fun _ s' => s' = s3 := by
    refine meets_ite (fun hs => ?_) fun _ => meets_pure rfl
    have hs : 23 ≤ length.toNat := hle hs
    refine ⟨fun r hr => ?_, _, s3, rfl, rfl⟩
    rw [List.mem_singleton.mp hr]
    exact hok _ _ (by omega) (by omega)
  refine meets_bind hs fun sp now hn => ?_
  rw [hn]
  refine meets_change (hp.trans (hi.trans ?_))
  split
  · exact ⟨rfl, fun kn => by cases kn <;> rfl, rfl⟩
  · exact ⟨rfl, fun _ => rfl, rfl⟩

theorem takeStructure_meets {fuel : Nat} (h : StructureAt m data type length cursor p)
    (hsm : cursor ≤ data + 1024 * 1024) (hf : 1024 * 1024 < fuel)
    (hok : ∀ a n, data ≤ a → a + n ≤ cursor → ok ⟨a, n⟩) :
    Meets ok m s (takeStructure fuel data type length (data + length.toNat) cursor) fun _ s' => Handled s p s' := by
  have hst := h.strings
  unfold takeStructure
  extract_lets copy
  -- one field after the other is copied
  have hc : ∀ (c now : Info) (f : List Text) (t : Text), t.place < length.toNat →
      Copied c p f now →
      Meets ok m now (copy t t.place) fun _ s' => Copied c p (f ++ [t]) s' := by
    intro c now f t hp hcp
    refine meets_byte (hok _ _ (by omega) (by omega)) ?_
    refine (copy_structure_string_meets hst (by omega) hf fun a h1 h2 => hok a 1 (by omega) (by omega)).mono ?_
    rintro _ s' ⟨ch, hch, rfl⟩
    refine hcp.snoc ?_
    rw [Text.inStructure, h.area_eq, h.byte (by omega)]
    exact hch
  have hh (t : Text) : t.heldBy p = true ↔ type = t.type ∧ t.least ≤ length.toNat := by
    rw [Text.heldBy, decide_eq_true_eq, h.type_eq, h.length_eq]
  have hle {k : UInt8} (hk : length ≥ k) : k.toNat ≤ length.toNat := UInt8.le_iff_toNat_le.mp hk
  have hlt {k : UInt8} (hk : ¬ length ≥ k) : length.toNat < k.toNat := by grind
  refine meets_ite (fun h0 => meets_modify (meets_ite (fun hl => ?_) fun hs => ?_)) fun h0 => ?_
  · have hl : 6 ≤ length.toNat := hle hl
    refine meets_bind (hc _ _ [] .bios_vendor (by show 4 < _; omega) (.nothing _ p)) fun _ s1 hs1 => ?_
    refine (hc _ s1 _ .bios_version (by show 5 < _; omega) hs1).mono fun _ s2 hs2 => ?_
    refine hs2.handled .bios (h.type_eq.trans h0) fun t => ?_
    rw [hh, h0]
    cases t <;> simp [Text.type, Text.least, hl]
  · have hs : length.toNat < 6 := hlt hs
    refine meets_pure ((Copied.nothing _ p).handled .bios (h.type_eq.trans h0) fun t => ?_)
    grind [Text.type, Text.least]
  refine meets_ite (fun h1 => meets_modify (meets_ite (fun hl => ?_) fun hs => ?_)) fun h1 => ?_
  · have hl : 8 ≤ length.toNat := hle hl
    refine meets_bind (hc _ _ [] .system_manufacturer (by show 4 < _; omega) (.nothing _ p)) fun _ s1 hs1 => ?_
    refine meets_bind (hc _ s1 _ .system_product (by show 5 < _; omega) hs1) fun _ s2 hs2 => ?_
    refine meets_bind (hc _ s2 _ .system_version (by show 6 < _; omega) hs2) fun _ s3 hs3 => ?_
    refine (hc _ s3 _ .system_serial (by show 7 < _; omega) hs3).mono fun _ s4 hs4 => ?_
    refine hs4.handled .system (h.type_eq.trans h1) fun t => ?_
    rw [hh, h1]
    cases t <;> simp [Text.type, Text.least, hl]
  · have hs : length.toNat < 8 := hlt hs
    refine meets_pure ((Copied.nothing _ p).handled .system (h.type_eq.trans h1) fun t => ?_)
    grind [Text.type, Text.least]
  refine meets_ite (fun h2 => meets_modify (meets_ite (fun hl => ?_) fun hs => ?_)) fun h2 => ?_
  · have hl : 6 ≤ length.toNat := hle hl
    refine meets_bind (hc _ _ [] .baseboard_manufacturer (by show 4 < _; omega) (.nothing _ p)) fun _ s1 hs1 => ?_
    refine (hc _ s1 _ .baseboard_product (by show 5 < _; omega) hs1).mono fun _ s2 hs2 => ?_
    refine hs2.handled .baseboard (h.type_eq.trans h2) fun t => ?_
    rw [hh, h2]
    cases t <;> simp [Text.type, Text.least, hl]
  · have hs : length.toNat < 6 := hlt hs
    refine meets_pure ((Copied.nothing _ p).handled .baseboard (h.type_eq.trans h2) fun t => ?_)
    grind [Text.type, Text.least]
  have hnn (t : Text) : t ∈ [] ↔ t.heldBy p = true := by
    rw [hh]
    cases t <;> simp [Text.type, h0, h1, h2]
  refine meets_ite (fun h4 => meets_change ?_) fun h4 => meets_ite (fun h17 => ?_) fun h17 => meets_pure ?_
  · exact (Copied.nothing _ p).handled .processor (h.type_eq.trans h4) hnn
  · have hd := (Copied.nothing (Kind.memory_device.count s) p).handled .memory_device (h.type_eq.trans h17) hnn
    refine (parse_memory_device_meets fun a n ha hn => hok a n ha (by omega)).mono fun _ s' hs' => ?_
    exact hd.unchanged hs'
  · refine ⟨rfl, fun kn => ?_, fun t ht => absurd ((hnn t).mpr ht) List.not_mem_nil, fun _ _ => rfl⟩
    rw [h.type_eq, if_neg]
    cases kn
    · exact h0
    · exact h1
    · exact h2
    · exact h4
    · exact h17

end

/-! ## The walk -/

theorem stringsEnd_meets {ok : Range → Prop} {m : Mem} {s : Info} {cursor left : Nat}
    (hok : ∀ a, cursor ≤ a → a < cursor + left → ok ⟨a, 1⟩) :
    Meets ok m s (stringsEnd cursor left) fun st s' => s' = s ∧
      (doubleNul (slice m cursor left) = none → cursor + left ≤ st + 1) ∧
      ∀ k, doubleNul (slice m cursor left) = some k → st = cursor + k := by
  induction left generalizing cursor with
  | zero => exact meets_pure ⟨rfl, fun _ => by omega, nofun⟩
  | succ left ih =>
    cases left with
    | zero =>
      have hn : doubleNul (slice m cursor 1) = none := by
        show doubleNul [m cursor] = none
        rw [doubleNul_cons, if_neg (by simp)]
        rfl
      refine meets_pure ⟨rfl, fun _ => le_refl _, fun k hk => ?_⟩
      rw [hn] at hk
      cases hk
    | succ left =>
      have hsl : doubleNul (slice m cursor (left + 1 + 1)) = if m cursor = 0 ∧ m (cursor + 1) = 0 then some 0
          else (doubleNul (slice m (cursor + 1) (left + 1))).map (· + 1) := by
        simp [slice_succ, doubleNul_cons, List.head?_cons, Option.some.injEq]
      have hnx : ¬ (m cursor = 0 ∧ m (cursor + 1) = 0) → Meets ok m s (stringsEnd (cursor + 1) (left + 1))
          fun st s' => s' = s ∧ (doubleNul (slice m cursor (left + 1 + 1)) = none → cursor + (left + 1 + 1) ≤ st + 1) ∧
            ∀ k, doubleNul (slice m cursor (left + 1 + 1)) = some k → st = cursor + k := by
        intro hnt
        rw [hsl, if_neg hnt]
        refine (ih fun a h1 h2 => hok a (by omega) (by omega)).mono fun st s' hst => ⟨hst.1, fun hn => ?_, fun k hk => ?_⟩
        · have hl := hst.2.1 (Option.map_eq_none_iff.mp hn)
          omega
        · obtain ⟨j, hj, rfl⟩ := Option.map_eq_some_iff.mp hk
          rw [hst.2.2 j hj]
          omega
      refine meets_byte (hok _ (le_refl _) (by omega)) (meets_ite (fun hf => hnx fun h => hf h.1) fun hf => ?_)
      refine meets_byte (hok _ (by omega) (by omega))
        (meets_ite (fun hs => hnx fun h => hs h.2) fun hs => meets_pure ⟨rfl, ?_, ?_⟩)
      · grind
      grind

theorem Describes.cleared : Describes {} [] :=
  ⟨rfl, fun k => by cases k <;> rfl, fun _ => spells_nil rfl⟩

theorem Describes.snoc {s s' : Info} {structures : List (List UInt8)} {p : List UInt8} (h : Describes s structures)
    (hf : structures.length < 2 ^ 31) (hs' : Handled { s with parsed_structures := s.parsed_structures + 1 } p s') :
    Describes s' (structures ++ [p]) := by
  have ho : (1 : UInt32).toNat = 1 := rfl
  constructor
  · rw [hs'.parsed, List.length_append, List.length_singleton, UInt32.toNat_add, h.parsed, ho]
    exact Nat.mod_eq_of_lt (by omega)
  · intro k
    have hc := h.counts k
    have hle : structures.countP (structureType · = k.type) ≤ structures.length := List.countP_le_length
    have hk : k.counter { s with parsed_structures := s.parsed_structures + 1 } = k.counter s := by
      cases k <;> rfl
    rw [hs'.counts k, hk, List.countP_append, List.countP_singleton]
    grind
  · intro t
    rw [Text.inTable, List.filter_append]
    cases hh : t.heldBy p with
    | true =>
      have hl : (structures.filter t.heldBy ++ [p].filter t.heldBy).getLast? = some p := by
        simp [List.filter_singleton, hh]
      rw [hl]
      exact hs'.written t hh
    | false =>
      rw [List.filter_singleton, hh, hs'.kept t hh]
      rw [cond_false, List.append_nil]
      exact h.texts t

/-- The structures of a table up to the place where a walk ends, whatever was announced. -/
structure Complete (table : List UInt8) (structures : List (List UInt8)) (rest : List UInt8) : Prop where
  cuts : structureFormat.Cuts table structures rest
  stops : Marked structures ∨ (rest.length < 4 ∧ Unmarked structures)

section
variable {table rest left : List UInt8} {structures done more : List (List UInt8)}

theorem Walk.complete {announced : Nat} (h : Walk announced table structures rest) : Complete table structures rest :=
  ⟨h.cuts, h.stops.imp_right And.right⟩

theorem Complete.marker (h : Complete table structures rest)
    (hl : structureFormat.Cuts table (structures ++ more) left) (hm : more ≠ []) : ¬ Unmarked structures := by
  rcases h.stops with ⟨b, l, rfl, hls, _⟩ | ⟨hr, _⟩
  · exact fun hn => hn l (by simp) hls
  · -- the next st w not fit i the rest
    exfalso
    have heq := h.cuts.eq.symm.trans hl.eq
    rw [List.flatten_append, List.append_assoc] at heq
    rw [List.append_cancel_left heq] at hr
    obtain ⟨p, o, rfl⟩ := List.exists_cons_of_ne_nil hm
    have hln := structure_long (hl.each p (by simp))
    grind

theorem Complete.goes_on (h : Complete table structures rest) (hd : structureFormat.Cuts table done left)
    (hm : Unmarked done) : ∃ more, structures = done ++ more ∧ structureFormat.Cuts left more rest := by
  rcases Format.Cuts.continues hd h.cuts with hmr | ⟨more, rfl⟩
  · exact hmr
  · by_cases hn : more = []
    · subst hn
      rw [List.append_nil] at hd ⊢
      refine ⟨[], (List.append_nil _).symm, ?_⟩
      have heq := h.cuts.eq.symm.trans hd.eq
      rw [List.append_cancel_left heq]
      exact cuts_nil left
    · exact absurd (fun p hp => hm p (List.mem_append_left _ hp)) (h.marker hd hn)

theorem Complete.not_longer (h : Complete table structures rest) (h' : Complete table (structures ++ more) left) :
    more = [] := by
  by_contra hne
  have hm := h.marker h'.cuts hne
  rcases h'.stops with ⟨b, l, heq, _, hb⟩ | ⟨_, hn⟩
  · -- the marker would stand b the l one
    obtain ⟨f, tail, hmr⟩ := (List.eq_nil_or_concat' more).resolve_left hne
    rw [hmr, ← List.append_assoc] at heq
    obtain ⟨hf, _⟩ := List.append_inj' heq rfl
    refine hm fun p hp => hb p ?_
    grind
  · exact hm fun p hp => hn p (List.mem_append_left _ hp)

theorem Complete.unique (h : Complete table structures rest) (h' : Complete table done left) : done = structures := by
  rcases Format.Cuts.continues h.cuts h'.cuts with ⟨more, rfl, _⟩ | ⟨more, rfl⟩
  · rw [h.not_longer h', List.append_nil]
  · rw [h'.not_longer h, List.append_nil]

theorem Marked.not_unmarked (h : Marked structures) : ¬ Unmarked structures := by
  obtain ⟨b, l, rfl, hl, _⟩ := h
  exact fun hn => hn l (by simp) hl

end

theorem structureSize_slice (m : Mem) (a : Nat) {n : Nat} (hn : 2 ≤ n) :
    structureSize (slice m a n) =
      if 4 ≤ (m (a + 1)).toNat ∧ (m (a + 1)).toNat ≤ n then
        (doubleNul (slice m (a + (m (a + 1)).toNat) (n - (m (a + 1)).toNat))).map ((m (a + 1)).toNat + · + 2)
      else none := by
  rw [structureSize, ofList_slice m a (by omega), slice_length]
  grind [slice_drop]

def Ended (announced : Nat) (table : List UInt8) : Option Bool → Info → Prop
  | none, _ => ∀ structures rest, ¬ Walk announced table structures rest
  | some found_end, s => ∃ structures rest, structureFormat.Cuts table structures rest ∧ Describes s structures ∧
    if found_end then Marked structures else rest.length < 4 ∧ Unmarked structures

section
variable {m : Mem} {s : Info} {bytes fuel : Nat} {size announced : UInt32}

/-- What the loop over the structures knows at an offset. -/
structure Along (m : Mem) (bytes : Nat) (size announced offset : UInt32) (s : Info) (done : List (List UInt8)) :
    Prop where
  le : offset.toNat ≤ size.toNat
  cuts : structureFormat.Cuts (slice m bytes size.toNat) done (slice m (bytes + offset.toNat) (size.toNat - offset.toNat))
  describes : Describes s done
  unmarked : Unmarked done
  few : done.length ≤ offset.toNat
  announced : announced ≠ 0 → done.length ≤ announced.toNat

theorem Along.no_walk {o : UInt32} {done : List (List UInt8)} (h : Along m bytes size announced o s done)
    (hr : 4 ≤ size.toNat - o.toNat)
    (hs : structureFormat.size (slice m (bytes + o.toNat) (size.toNat - o.toNat)) = none) :
    Ended announced.toNat (slice m bytes size.toNat) none s := by
  intro structures rest hw
  obtain ⟨more, rfl, hmr⟩ := hw.complete.goes_on h.cuts h.unmarked
  obtain rfl := Format.Cuts.nil_of_size hmr hs
  rw [List.append_nil] at hw
  rcases hw.stops with hm | ⟨_, hsh, _⟩
  · exact hm.not_unmarked h.unmarked
  · have hrs : slice m (bytes + o.toNat) (size.toNat - o.toNat) = rest := hmr.eq
    grind

theorem structureTurn_meets (hsl : size.toNat ≤ 1024 * 1024) (hf : 1024 * 1024 < fuel) {o : UInt32}
    {done : List (List UInt8)} (h : Along m bytes size announced o s done) :
    Meets (·.Inside ⟨bytes, size.toNat⟩) m s (structureTurn fuel bytes size announced o) fun next s' =>
      match next with
      | .inl offset' => (∃ done, Along m bytes size announced offset' s' done) ∧
        size.toNat - offset'.toNat < size.toNat - o.toNat
      | .inr ended => Ended announced.toNat (slice m bytes size.toNat) ended s' := by
  have hle := h.le
  have hnx : (o + 4).toNat = o.toNat + 4 := by grind
  have hr : (size - o).toNat = size.toNat - o.toNat := by grind
  have hok : ∀ a n, bytes + o.toNat ≤ a → a + n ≤ bytes + size.toNat →
      (⟨a, n⟩ : Range).Inside ⟨bytes, size.toNat⟩ := fun a n h1 h2 =>
    Range.inside_of_le (by show bytes ≤ a; omega) (by show a + n ≤ bytes + size.toNat; omega)
  unfold structureTurn
  dsimp only
  refine meets_ite (fun he => meets_pure ⟨done, _, h.cuts, h.describes, ?_, h.unmarked⟩) fun hmr => ?_
  · grind
  rw [not_not, UInt32.le_iff_toNat_le, hnx] at hmr
  have hs : structureFormat.size (slice m (bytes + o.toNat) (size.toNat - o.toNat)) = _ :=
    structureSize_slice m (bytes + o.toNat) (by omega)
  refine meets_byte (hok _ _ (by omega) (by omega)) (meets_byte (hok _ _ (by omega) (by omega)) ?_)
  generalize hl : m (bytes + o.toNat + 1) = length at *
  refine meets_ite (fun hb => meets_pure ?_) fun hg => ?_
  · -- the length is too small, or goes beyond the table
    refine h.no_walk (by omega) ?_
    grind
  obtain ⟨hlw, hh⟩ := not_or.mp hg
  have hlw : 4 ≤ length.toNat := UInt8.le_iff_toNat_le.mp (UInt8.not_lt.mp hlw)
  have hh := UInt32.le_iff_toNat_le.mp (UInt32.not_lt.mp hh)
  rw [hr, UInt8.toNat_toUInt32] at hh
  rw [if_pos ⟨hlw, hh⟩] at hs
  have hlf : bytes + size.toNat - (bytes + o.toNat + length.toNat) =
      size.toNat - o.toNat - length.toNat := by omega
  rw [hlf]
  refine meets_bind (stringsEnd_meets fun a h1 h2 => hok a 1 (by omega) (by omega)) ?_
  rintro cursor _ ⟨rfl, hnn, hsm⟩
  cases hn : doubleNul (slice m (bytes + o.toNat + length.toNat) (size.toNat - o.toNat - length.toNat)) with
  | none =>
    have hls := hnn hn
    rw [if_pos (by omega)]
    rw [hn] at hs
    exact meets_pure (h.no_walk (by omega) hs)
  | some k =>
    have hk := doubleNul_le hn
    rw [slice_length] at hk
    obtain rfl := hsm k hn
    rw [hn] at hs
    have hs : structureFormat.size (slice m (bytes + o.toNat) (size.toNat - o.toNat)) =
        some (length.toNat + k + 2) := hs
    rw [if_neg (by omega)]
    have hc := h.cuts.snoc hs
    rw [slice_take m _ (by omega), slice_drop m _ (by omega)] at hc
    have hat : StructureAt m (bytes + o.toNat) (m (bytes + o.toNat)) length
        (bytes + o.toNat + length.toNat + k) (slice m (bytes + o.toNat) (length.toNat + k + 2)) :=
      ⟨by congr 1; omega, rfl, hl, hlw, by omega⟩
    refine meets_modify (meets_bind (takeStructure_meets hat (by omega) hf
      fun a n h1 h2 => hok a n (by omega) (by omega)) fun _ s' hhn => ?_)
    have hfw := h.few
    have hd := h.describes.snoc (by omega) hhn
    generalize hp : slice m (bytes + o.toNat) (length.toNat + k + 2) = p at *
    have hcn : (done ++ [p]).length = done.length + 1 := by
      rw [List.length_append, List.length_singleton]
    refine meets_ite (fun he => meets_pure ⟨_, _, hc, hd, done, p, rfl, ?_, h.unmarked⟩) fun hgs => ?_
    · exact hat.type_eq.trans he
    have hu : Unmarked (done ++ [p]) := by
      intro q hq
      rcases List.mem_append.mp hq with hq | hq
      · exact h.unmarked q hq
      · rw [List.mem_singleton.mp hq, hat.type_eq]
        exact hgs
    refine meets_get (meets_ite (fun hm => meets_pure fun structures rest hw => ?_) fun hft => meets_pure ?_)
    · -- more structures than announced
      obtain ⟨more, rfl, _⟩ := hw.complete.goes_on hc hu
      have hz : announced.toNat ≠ 0 := fun heq => hm.1 (UInt32.toNat_inj.mp heq)
      have hnm := hw.number hz
      have hpr := UInt32.lt_iff_toNat_lt.mp hm.2
      rw [hd.parsed] at hpr
      grind
    · have ho : (UInt32.ofNat (bytes + o.toNat + length.toNat + k + 2 - bytes)).toNat =
          o.toNat + (length.toNat + k + 2) := by
        rw [UInt32.toNat_ofNat']
        omega
      refine ⟨⟨done ++ [p], by omega, ?_, hd, hu, by omega, fun ha => ?_⟩, by omega⟩
      · rw [ho, ← Nat.add_assoc, ← Nat.sub_sub]
        exact hc
      · have hpr : ¬ s'.parsed_structures > announced := fun hm => hft ⟨ha, hm⟩
        rw [← hd.parsed]
        exact UInt32.le_iff_toNat_le.mp (UInt32.not_lt.mp hpr)

theorem structures_meet (hs : size.toNat ≤ 1024 * 1024) (hf : 1024 * 1024 < fuel) :
    Meets (·.Inside ⟨bytes, size.toNat⟩) m {} (loop (structureTurn fuel bytes size announced) fuel 0) fun e s' =>
      Ended announced.toNat (slice m bytes size.toNat) e s' := by
  refine meets_loop (fun o s => ∃ done, Along m bytes size announced o s done)
    (fun o => size.toNat - o.toNat) ?_ ⟨[], ?_⟩ (Nat.lt_of_le_of_lt (Nat.sub_le _ _) (by omega))
  · grind [structureTurn_meets]
  · exact ⟨Nat.zero_le _, cuts_nil _, .cleared, fun _ h => absurd h List.not_mem_nil, Nat.zero_le _, fun _ => Nat.zero_le _⟩

end

/-- For every table of 6 bytes to 1 MiB and every announced number, the walk reads only bytes of the
table and ends. It returns 0 just when the table begins with a sequence of structures that ends as it
should, and then the result says what is in them. -/
theorem the_table_is_walked (m : Mem) (bytes : Nat) (size announced : UInt32) (fuel : Nat)
    (hfuel : 1024 * 1024 < fuel) (hbytes : bytes ≠ 0) (hlow : 6 ≤ size.toNat) (hhigh : size.toNat ≤ 1024 * 1024) :
    let table := slice m bytes size.toNat
    (∀ r ∈ (smbios_parse_table_blob fuel bytes size announced m {}).2, ∀ a, r.Has a →
      bytes ≤ a ∧ a < bytes + size.toNat) ∧
    ∃ result after, (smbios_parse_table_blob fuel bytes size announced m {}).1 = some (result, after) ∧
      (result = 0 ∨ result = -1) ∧
      (result = 0 ↔ ∃ structures rest, Walk announced.toNat table structures rest) ∧
      ∀ structures rest, Walk announced.toNat table structures rest → Describes after structures := by
  intro table
  have hsix : (6 : UInt32).toNat = 6 := rfl
  have hmax : SMBIOS_MAX_TABLE_SIZE.toNat = 1024 * 1024 := rfl
  have hwalk : Meets (·.Inside ⟨bytes, size.toNat⟩) m {} (smbios_parse_table_blob fuel bytes size announced)
      fun result after =>
        (result = 0 ∧ ∃ structures rest, Walk announced.toNat table structures rest ∧ Describes after structures) ∨
        (result = -1 ∧ ∀ structures rest, ¬ Walk announced.toNat table structures rest) := by
    unfold smbios_parse_table_blob
    rw [if_neg]
    swap
    · rintro (hzero | hshort | hlong)
      · exact hbytes hzero
      · rw [UInt32.lt_iff_toNat_lt] at hshort
        omega
      · rw [gt_iff_lt, UInt32.lt_iff_toNat_lt] at hlong
        omega
    refine meets_bind (structures_meet hhigh hfuel) fun ended s hended => ?_
    cases ended with
    | none => exact meets_pure (Or.inr ⟨rfl, hended⟩)
    | some found_end =>
      obtain ⟨structures, rest, hcuts, hdescribes, hstops⟩ := hended
      have hcomplete : Complete table structures rest := by
        refine ⟨hcuts, ?_⟩
        cases found_end with
        | true => exact Or.inl hstops
        | false => exact Or.inr hstops
      have hzero : announced ≠ 0 ↔ announced.toNat ≠ 0 := not_congr UInt32.toNat_inj.symm
      refine meets_ite (fun hnone => meets_pure (Or.inr ⟨rfl, fun others left hothers => ?_⟩)) fun hsome =>
        meets_get (meets_pure ?_)
      · obtain rfl := hcomplete.unique hothers.complete
        rw [hnone.1] at hstops
        rcases hothers.stops with hmarked | ⟨hannounced, _⟩
        · exact hmarked.not_unmarked hstops.2
        · exact hzero.mpr hannounced hnone.2
      · split
        next hwrong =>
          refine Or.inr ⟨rfl, fun others left hothers => hwrong.2 (UInt32.toNat_inj.mp ?_)⟩
          obtain rfl := hcomplete.unique hothers.complete
          rw [hdescribes.parsed, hothers.number (hzero.mp hwrong.1)]
        next hright =>
          refine Or.inl ⟨rfl, structures, rest, ⟨hcuts, ?_, fun hannounced => ?_⟩, hdescribes⟩
          · cases found_end with
            | true => exact Or.inl hstops
            | false => exact Or.inr ⟨hzero.mp fun heq => hsome ⟨rfl, heq⟩, hstops⟩
          · have hparsed : s.parsed_structures = announced := by
              by_contra hne
              exact hright ⟨hzero.mpr hannounced, hne⟩
            rw [← hdescribes.parsed, hparsed]
  obtain ⟨hreads, result, after, hrun, hresult⟩ := hwalk
  refine ⟨fun r hr a ha => hreads r hr a ha, result, after, hrun, ?_⟩
  rcases hresult with ⟨rfl, structures, rest, hwalk, hdescribes⟩ | ⟨rfl, hnone⟩
  · refine ⟨Or.inl rfl, iff_of_true rfl ⟨structures, rest, hwalk⟩, fun others left hothers => ?_⟩
    rw [hwalk.complete.unique hothers.complete]
    exact hdescribes
  · refine ⟨Or.inr rfl, iff_of_false (by decide) fun ⟨structures, rest, hwalk⟩ => hnone structures rest hwalk, ?_⟩
    exact fun structures rest hwalk => absurd hwalk (hnone structures rest)

/-- A BIOS structure with the strings "AB" and "C", and an end marker. -/
def smallTable : List (List UInt8) :=
  [[0, 6, 0, 0, 1, 2, 65, 66, 0, 67, 0, 0], [127, 4, 0, 0, 0, 0]]

theorem the_second_string_is_the_version :
    ∃ after, (smbios_parse_table_blob (1024 * 1024 + 1) 0x1000 18 0
        (fun a => ofList smallTable.flatten (a - 0x1000)) {}).1 = some (0, after) ∧
      after.parsed_structures = 2 ∧ Spells (after.texts .bios_version) ['C'] := by
  obtain ⟨-, result, after, hrun, -, hzero, hdescribes⟩ :=
    the_table_is_walked (fun a => ofList smallTable.flatten (a - 0x1000)) 0x1000 18 0 (1024 * 1024 + 1)
      (Nat.lt_succ_self _) (by decide) (by decide) (by decide)
  have hwalk : Walk (0 : UInt32).toNat (slice (fun a => ofList smallTable.flatten (a - 0x1000)) 0x1000 18) smallTable [] := by
    refine ⟨⟨by decide, ?_⟩, Or.inl ⟨smallTable.dropLast, [127, 4, 0, 0, 0, 0], rfl, rfl, ?_⟩, fun h => absurd rfl h⟩
    · show ∀ p ∈ smallTable, structureSize p = some p.length
      decide
    · show ∀ p ∈ smallTable.dropLast, structureType p ≠ 127
      decide
  have hafter := hdescribes _ _ hwalk
  obtain rfl := hzero.mpr ⟨_, _, hwalk⟩
  refine ⟨after, hrun, UInt32.toNat_inj.mp hafter.parsed, ?_⟩
  exact hafter.texts .bios_version

end mvh.smbios
