-- The ARP cache of `net.c`: 32 entries that updates fill, and that lookups and expiry
-- take out of use in the middle of the table.
import MvhKernel.Net
import MvhKernel.Runs

open runs

namespace mvh.net

abbrev NET_ARP_CACHE_SIZE : Nat := 32

structure ArpEntry where
  valid : Bool
  address : UInt32
  mac : Mac
  expires_at : UInt64

abbrev ArpCache := Fin NET_ARP_CACHE_SIZE → ArpEntry

/-! ## The functions of the cache -/

def net_arp_cache_init (arp_cache : ArpCache) : ArpCache :=
  fun index => { arp_cache index with valid := false }

def net_arp_cache_expire (arp_cache : ArpCache) (now : UInt64) : ArpCache := fun index =>
  if (arp_cache index).valid ∧ (arp_cache index).expires_at ≤ now then
    { arp_cache index with valid := false }
  else arp_cache index

def ArpEntry.holds (entry : ArpEntry) (address : UInt32) : Bool :=
  entry.valid && entry.address == address

/-- The search of an update: it stops at the entry of the address and remembers the first free
one. -/
def update_loop (arp_cache : ArpCache) (address : UInt32) :
    List (Fin NET_ARP_CACHE_SIZE) → Option (Fin NET_ARP_CACHE_SIZE) →
      Option (Fin NET_ARP_CACHE_SIZE)
  | [], slot => slot
  | index :: rest, slot =>
    if (arp_cache index).holds address then some index
    else if slot = none ∧ (arp_cache index).valid = false then
      update_loop arp_cache address rest (some index)
    else update_loop arp_cache address rest slot

def hashed (address : UInt32) : Fin NET_ARP_CACHE_SIZE :=
  ⟨address.toNat % NET_ARP_CACHE_SIZE, Nat.mod_lt _ (by decide)⟩

def net_arp_cache_update (arp_cache : ArpCache) (address : UInt32) (mac : Option Mac)
    (expires_at : UInt64) : ArpCache × Int :=
  match mac with
  | none => (arp_cache, -1)
  | some mac =>
    if address = 0 ∨ expires_at = 0 then (arp_cache, -1)
    else
      let slot := (update_loop arp_cache address (List.finRange NET_ARP_CACHE_SIZE) none).getD
        (hashed address)
      (Function.update arp_cache slot ⟨true, address, mac, expires_at⟩, 0)

def lookup_loop (arp_cache : ArpCache) (address : UInt32) (now : UInt64) :
    List (Fin NET_ARP_CACHE_SIZE) → ArpCache × Option Mac
  | [] => (arp_cache, none)
  | index :: rest =>
    if (arp_cache index).holds address then
      if (arp_cache index).expires_at ≤ now then
        (Function.update arp_cache index { arp_cache index with valid := false }, none)
      else (arp_cache, some (arp_cache index).mac)
    else lookup_loop arp_cache address now rest

/-- The result is the address delivered with the return value 0, and `none` for -1. -/
def net_arp_cache_lookup (arp_cache : ArpCache) (address : UInt32) (now : UInt64)
    (output : Bool) : ArpCache × Option Mac :=
  if output = false then (arp_cache, none)
  else lookup_loop arp_cache address now (List.finRange NET_ARP_CACHE_SIZE)

/-! ## What the searches find -/

@[simp] theorem holds_iff (e : ArpEntry) (address : UInt32) :
    e.holds address = true ↔ e.valid = true ∧ e.address = address := by
  simp [ArpEntry.holds]

def Single (arp_cache : ArpCache) : Prop :=
  ∀ i j, (arp_cache i).valid = true → (arp_cache j).valid = true →
    (arp_cache i).address = (arp_cache j).address → i = j

theorem update_loop_spec (a : ArpCache) (ad : UInt32)
    (ix : List (Fin NET_ARP_CACHE_SIZE)) (s : Option (Fin NET_ARP_CACHE_SIZE)) :
    (∃ i, update_loop a ad ix s = some i ∧
        (a i).holds ad = true) ∨
      ∀ i ∈ ix, (a i).holds ad = false := by
  induction ix generalizing s with
  | nil => right; simp
  | cons index rest ih =>
    unfold update_loop
    by_cases hf : (a index).holds ad = true
    · grind
    · rw [if_neg hf]
      have hr : ∀ s, (∃ i, update_loop a ad rest s = some i ∧
          (a i).holds ad = true) ∨
          ∀ i ∈ index :: rest, (a i).holds ad = false := by
        intro s
        apply (ih s).imp_right
        intro h
        simpa [hf] using h
      split
      · exact hr (some index)
      · exact hr s

theorem lookup_loop_spec (a : ArpCache) (ad : UInt32) (now : UInt64)
    (ix : List (Fin NET_ARP_CACHE_SIZE)) :
    (∃ i ∈ ix, (a i).holds ad = true ∧ (a i).expires_at ≤ now ∧
        lookup_loop a ad now ix =
          (Function.update a i { a i with valid := false }, none)) ∨
      (∃ i ∈ ix, (a i).holds ad = true ∧ now < (a i).expires_at ∧
        lookup_loop a ad now ix = (a, some (a i).mac)) ∨
      (∀ i ∈ ix, (a i).holds ad = false) ∧
        lookup_loop a ad now ix = (a, none) := by
  induction ix with
  | nil => right; right; simp [lookup_loop]
  | cons index rest ih => grind [lookup_loop]

theorem update_takes_the_entry {a : ArpCache} (h : Single a) (ad : UInt32) :
    ∀ i, i ≠ (update_loop a ad (List.finRange NET_ARP_CACHE_SIZE) none).getD
      (hashed ad) → (a i).holds ad = false := by
  intro i hi
  rcases update_loop_spec a ad (List.finRange NET_ARP_CACHE_SIZE) none with
    ⟨slot, hsl, hf⟩ | hn
  · rw [hsl, Option.getD_some] at hi
    rw [Bool.eq_false_iff]
    intro hs
    rw [holds_iff] at hf hs
    exact hi (h i slot hs.1 hf.1 (hs.2.trans hf.2.symm))
  · exact hn i (List.mem_finRange i)

/-! ## The run -/

/-- The cache, and the MAC and the expiry time of the last good update of every address. -/
structure ArpWorld where
  cache : ArpCache
  last : UInt32 → Option (Mac × UInt64)

inductive ArpCall where
  | update (address : UInt32) (mac : Option Mac) (expires_at : UInt64)
  | expire (now : UInt64)
  | lookup (address : UInt32) (now : UInt64) (output : Bool)

/-- The log after an update: only an update that returns 0 is noted. -/
def noted (last : UInt32 → Option (Mac × UInt64)) (result : Int) (address : UInt32)
    (mac : Option Mac) (expires_at : UInt64) : UInt32 → Option (Mac × UInt64) :=
  if result = 0 then Function.update last address (mac.map fun m => (m, expires_at)) else last

def arpStep (w : ArpWorld) : ArpCall → ArpWorld
  | .update address mac expires_at =>
    let result := net_arp_cache_update w.cache address mac expires_at
    ⟨result.1, noted w.last result.2 address mac expires_at⟩
  | .expire now => ⟨net_arp_cache_expire w.cache now, w.last⟩
  | .lookup address now output => ⟨(net_arp_cache_lookup w.cache address now output).1, w.last⟩

/-- Right after `net_arp_cache_init`, with whatever the table held before. -/
def arpStart (table : ArpCache) : ArpWorld := ⟨net_arp_cache_init table, fun _ => none⟩

/-- Entries are single, and each one is what the last good update of its address wrote. -/
structure Fresh (w : ArpWorld) : Prop where
  single : Single w.cache
  newest : ∀ i, (w.cache i).valid = true →
    w.last (w.cache i).address = some ((w.cache i).mac, (w.cache i).expires_at)

theorem Fresh.drop {w : ArpWorld} (h : Fresh w) {a : ArpCache}
    (hd : ∀ i, (a i).valid = true → a i = w.cache i) :
    Fresh ⟨a, w.last⟩ := by
  constructor
  · intro i j hi hj ha
    have hs : a i = w.cache i := hd i hi
    have hs' : a j = w.cache j := hd j hj
    simp only [hs, hs'] at hi hj ha
    exact h.single i j hi hj ha
  · intro i hi
    show w.last (a i).address = some ((a i).mac, (a i).expires_at)
    have hs := hd i hi
    rw [hs]
    exact h.newest i (hs ▸ hi)

theorem Fresh.put {w : ArpWorld} (h : Fresh w) {s : Fin NET_ARP_CACHE_SIZE} {address : UInt32}
    (ho : ∀ i, i ≠ s → (w.cache i).holds address = false) (mac : Mac)
    (e : UInt64) :
    Fresh ⟨Function.update w.cache s ⟨true, address, mac, e⟩,
      Function.update w.last address (some (mac, e))⟩ := by
  have hap : ∀ i, i ≠ s → (w.cache i).valid = true → (w.cache i).address ≠ address := by
    grind [holds_iff]
  constructor
  · intro i j hi hj ha
    by_cases his : i = s <;> by_cases hjs : j = s
    · rw [his, hjs]
    · subst his
      simp only [Function.update_self, Function.update_of_ne hjs] at hj ha
      exact absurd ha.symm (hap j hjs hj)
    · subst hjs
      simp only [Function.update_self, Function.update_of_ne his] at hi ha
      exact absurd ha (hap i his hi)
    · simp only [Function.update_of_ne his, Function.update_of_ne hjs] at hi hj ha
      exact h.single i j hi hj ha
  · intro i hi
    by_cases his : i = s
    · subst his
      simp
    · simp only [Function.update_of_ne his] at hi ⊢
      rw [Function.update_of_ne (hap i his hi)]
      exact h.newest i hi

theorem fresh_start (t : ArpCache) : Fresh (arpStart t) where
  single := by
    intro i j hi
    cases hi
  newest := by
    intro i hi
    cases hi

theorem fresh_step (w : ArpWorld) (c : ArpCall) (h : Fresh w) : Fresh (arpStep w c) := by
  cases c with
  | update a mac e =>
    cases mac with
    | none => exact h
    | some mac =>
      by_cases hb : a = 0 ∨ e = 0
      · simpa [arpStep, net_arp_cache_update, hb, noted] using h
      · simp only [arpStep, net_arp_cache_update, if_neg hb, noted, if_pos]
        exact h.put (update_takes_the_entry h.single a) mac e
  | expire now =>
    apply h.drop
    grind [net_arp_cache_expire]
  | lookup a now o =>
    cases o with
    | false => exact h
    | true =>
      show Fresh ⟨(lookup_loop w.cache a now (List.finRange NET_ARP_CACHE_SIZE)).1, w.last⟩
      rcases lookup_loop_spec w.cache a now (List.finRange NET_ARP_CACHE_SIZE) with
        ⟨slot, -, -, -, hl⟩ | ⟨slot, -, -, -, hl⟩ | ⟨-, hl⟩
      · rw [hl]
        apply h.drop
        grind
      · rw [hl]; exact h
      · rw [hl]; exact h

/-! ## The law of the cache -/

/-- What the caller of a cache function sees. -/
def Answers (w : ArpWorld) : ArpCall → Prop
  | .update address mac expires_at =>
    (net_arp_cache_update w.cache address mac expires_at).2 = 0 → ∀ now, now < expires_at →
      ((net_arp_cache_lookup (net_arp_cache_update w.cache address mac expires_at).1
        address now true).2).isSome
  | .expire _ => True
  | .lookup address now output =>
    ∀ mac, (net_arp_cache_lookup w.cache address now output).2 = some mac →
      ∃ expires_at, w.last address = some (mac, expires_at) ∧ now < expires_at

theorem lookup_delivers {a : ArpCache} {ad : UInt32} {now : UInt64} {o : Bool}
    {mac : Mac} (h : (net_arp_cache_lookup a ad now o).2 = some mac) :
    ∃ i, (a i).holds ad = true ∧ now < (a i).expires_at ∧
      (a i).mac = mac := by
  cases o with
  | false => cases h
  | true =>
    change (lookup_loop a ad now (List.finRange NET_ARP_CACHE_SIZE)).2 = some mac at h
    rcases lookup_loop_spec a ad now (List.finRange NET_ARP_CACHE_SIZE) with
      ⟨i, -, -, -, hl⟩ | ⟨i, -, hf, ht, hl⟩ | ⟨-, hl⟩
    · rw [hl] at h; cases h
    · grind
    · rw [hl] at h; cases h

theorem lookup_finds {a : ArpCache} (h : Single a) {ad : UInt32}
    {now : UInt64} {i : Fin NET_ARP_CACHE_SIZE} (hi : (a i).holds ad = true)
    (ht : now < (a i).expires_at) :
    (net_arp_cache_lookup a ad now true).2 = some (a i).mac := by
  have ho : ∀ j, (a j).holds ad = true → j = i := by
    intro j hj
    rw [holds_iff] at hi hj
    exact h j i hj.1 hi.1 (hj.2.trans hi.2.symm)
  show (lookup_loop a ad now (List.finRange NET_ARP_CACHE_SIZE)).2 = _
  rcases lookup_loop_spec a ad now (List.finRange NET_ARP_CACHE_SIZE) with
    ⟨j, -, hj, hov, -⟩ | ⟨j, -, hj, -, hl⟩ | ⟨hn, -⟩
  · rw [ho j hj] at hov
    exact absurd ht (UInt64.not_lt.mpr hov)
  · rw [hl, ho j hj]
  grind

theorem fresh_answers (w : ArpWorld) (call : ArpCall) (h : Fresh w) : Answers w call := by
  cases call with
  | update a mac e =>
    intro hd now ht
    have ha := fresh_step w (.update a mac e) h
    cases mac with
    | none => cases hd
    | some mac =>
      by_cases hb : a = 0 ∨ e = 0
      · simp [net_arp_cache_update, hb] at hd
      · simp only [arpStep, net_arp_cache_update, if_neg hb] at ha ⊢
        generalize (update_loop w.cache a (List.finRange NET_ARP_CACHE_SIZE) none).getD
          (hashed a) = slot at ha ⊢
        have hf : (Function.update w.cache slot ⟨true, a, mac, e⟩ slot).holds
            a = true := by simp
        rw [lookup_finds ha.single hf (by simpa using ht)]
        rfl
  | expire now => trivial
  | lookup a now o =>
    intro mac hm
    obtain ⟨i, hf, ht, hs⟩ := lookup_delivers hm
    rw [holds_iff] at hf
    have hn := h.newest i hf.1
    grind

/-- In every run after `net_arp_cache_init` an address has at most one entry in use, and
every call is answered as the log of the updates says. -/
theorem the_cache_gives_the_newest_address (table : ArpCache) (calls : List ArpCall) :
    Always arpStep (fun w => Single w.cache) (arpStart table) calls ∧
      Each arpStep Answers (arpStart table) calls := by
  have hany : Each arpStep (fun _ _ => True) (arpStart table) calls :=
    each_of_forall (fun _ _ => trivial) (arpStart table)
  constructor
  · exact always_of_each (fun w call h _ => fresh_step w call h) (fun _ h => h.single)
      (fresh_start table) hany
  · exact each_of_each (fun w call h _ => fresh_step w call h)
      (fun w call h _ => fresh_answers w call h) (fresh_start table) hany

end mvh.net
