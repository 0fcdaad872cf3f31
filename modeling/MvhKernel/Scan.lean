-- Programs that look at a memory which nobody changes meanwhile.
import MvhKernel.FlatMemory
import MvhKernel.Ranges

namespace scan

open flat_memory ranges

/-- A program ends with a value and a state, or it does not end. -/
def Scan (σ α : Type) := Mem → σ → Option (α × σ) × List Range

section
variable {σ α β ι : Type}

def andThen (x : Scan σ α) (f : α → Scan σ β) : Scan σ β := fun m s =>
  match x m s with
  | (none, reads) => (none, reads)
  | (some (a, s'), reads) => ((f a m s').1, reads ++ (f a m s').2)

instance : Monad (Scan σ) where
  pure a := fun _ s => (some (a, s), [])
  bind := andThen

def get : Scan σ σ := fun _ s => (some (s, s), [])

def modify (f : σ → σ) : Scan σ Unit := fun _ s => (some ((), f s), [])

def byte (a : Nat) : Scan σ UInt8 := fun m s => (some (m a, s), [⟨a, 1⟩])

def word16 (a : Nat) : Scan σ UInt16 := fun m s => (some (load16 m a, s), [⟨a, 2⟩])

def word32 (a : Nat) : Scan σ UInt32 := fun m s => (some (load32 m a, s), [⟨a, 4⟩])

def word64 (a : Nat) : Scan σ UInt64 := fun m s => (some (load64 m a, s), [⟨a, 8⟩])

def loop (turn : ι → Scan σ (ι ⊕ α)) : Nat → ι → Scan σ α
  | 0, _ => fun _ _ => (none, [])
  | fuel + 1, i => do
    match ← turn i with
    | .inl j => loop turn fuel j
    | .inr a => pure a

/-- The program reads only ranges that are `ok`, ends, and what it ends with meets `post`. -/
structure Meets (ok : Range → Prop) (m : Mem) (s : σ) (x : Scan σ α) (post : α → σ → Prop) :
    Prop where
  reads : ∀ r ∈ (x m s).2, ok r
  ends : ∃ a s', (x m s).1 = some (a, s') ∧ post a s'

variable {ok : Range → Prop} {m : Mem} {s : σ}

theorem Meets.mono {x : Scan σ α} {p weaker : α → σ → Prop} (h : Meets ok m s x p)
    (hps : ∀ a s', p a s' → weaker a s') : Meets ok m s x weaker := by
  obtain ⟨a, s', he, hp⟩ := h.ends
  exact ⟨h.reads, a, s', he, hps a s' hp⟩

theorem meets_pure {a : α} {post : α → σ → Prop} (h : post a s) :
    Meets ok m s (pure a : Scan σ α) post :=
  ⟨fun _ hr => absurd hr List.not_mem_nil, a, s, rfl, h⟩

theorem meets_bind {x : Scan σ α} {f : α → Scan σ β} {middle : α → σ → Prop} {post : β → σ → Prop}
    (hx : Meets ok m s x middle) (hf : ∀ a s', middle a s' → Meets ok m s' (f a) post) :
    Meets ok m s (x >>= f) post := by
  obtain ⟨a, s', he, hm⟩ := hx.ends
  have hrs := hf a s' hm
  have hrn : (x >>= f) m s = ((f a m s').1, (x m s).2 ++ (f a m s').2) := by
    change andThen x f m s = _
    grind [andThen]
  obtain ⟨b, u, hb, hp⟩ := hrs.ends
  refine ⟨fun r hr => ?_, b, u, by rw [hrn]; exact hb, hp⟩
  rw [hrn] at hr
  rcases List.mem_append.mp hr with hr | hr
  · exact hx.reads r hr
  · exact hrs.reads r hr

theorem meets_ite {c : Prop} [Decidable c] {x y : Scan σ α} {post : α → σ → Prop}
    (hx : c → Meets ok m s x post) (hy : ¬c → Meets ok m s y post) :
    Meets ok m s (if c then x else y) post := by
  by_cases hc : c
  · rw [if_pos hc]
    exact hx hc
  · rw [if_neg hc]
    exact hy hc

/-! The primitive steps, with what follows them. -/

theorem meets_get {f : σ → Scan σ β} {post : β → σ → Prop} (h : Meets ok m s (f s) post) :
    Meets ok m s (get >>= f) post :=
  ⟨h.reads, h.ends⟩

theorem meets_modify {g : σ → σ} {f : Unit → Scan σ β} {post : β → σ → Prop}
    (h : Meets ok m (g s) (f ()) post) : Meets ok m s (modify g >>= f) post :=
  ⟨h.reads, h.ends⟩

theorem meets_change {g : σ → σ} {post : Unit → σ → Prop} (h : post () (g s)) : Meets ok m s (modify g) post :=
  ⟨fun _ hr => absurd hr List.not_mem_nil, (), g s, rfl, h⟩

theorem meets_read {r : Range} {x : Scan σ β} {post : β → σ → Prop} {y : Scan σ β} (hok : ok r)
    (hy : Meets ok m s y post) (hx : x m s = ((y m s).1, [r] ++ (y m s).2)) :
    Meets ok m s x post := by
  refine ⟨fun q hq => ?_, ?_⟩
  · rw [hx] at hq
    rcases List.mem_cons.mp hq with rfl | hq
    · exact hok
    · exact hy.reads q hq
  · rw [hx]
    exact hy.ends

theorem meets_byte {a : Nat} {f : UInt8 → Scan σ β} {post : β → σ → Prop} (hok : ok ⟨a, 1⟩)
    (h : Meets ok m s (f (m a)) post) : Meets ok m s (byte a >>= f) post :=
  meets_read hok h rfl

theorem meets_word16 {a : Nat} {f : UInt16 → Scan σ β} {post : β → σ → Prop} (hok : ok ⟨a, 2⟩)
    (h : Meets ok m s (f (load16 m a)) post) : Meets ok m s (word16 a >>= f) post :=
  meets_read hok h rfl

theorem meets_word32 {a : Nat} {f : UInt32 → Scan σ β} {post : β → σ → Prop} (hok : ok ⟨a, 4⟩)
    (h : Meets ok m s (f (load32 m a)) post) : Meets ok m s (word32 a >>= f) post :=
  meets_read hok h rfl

theorem meets_word64 {a : Nat} {f : UInt64 → Scan σ β} {post : β → σ → Prop} (hok : ok ⟨a, 8⟩)
    (h : Meets ok m s (f (load64 m a)) post) : Meets ok m s (word64 a >>= f) post :=
  meets_read hok h rfl

theorem meets_loop {turn : ι → Scan σ (ι ⊕ α)} (iv : ι → σ → Prop) (ms : ι → Nat)
    {post : α → σ → Prop}
    (ht : ∀ i s, iv i s → Meets ok m s (turn i) fun next s' =>
      match next with
      | .inl j => iv j s' ∧ ms j < ms i
      | .inr a => post a s')
    {fuel : Nat} {i : ι} (h : iv i s) (hf : ms i < fuel) :
    Meets ok m s (loop turn fuel i) post := by
  induction fuel generalizing i s with
  | zero => omega
  | succ fuel ih =>
    refine meets_bind (ht i s h) fun next s' hn => ?_
    grind [meets_pure]

/-! ## What a program leads to

The same rules for the state alone, for programs of which it is not asked that they end. -/

def Leads (m : Mem) (s : σ) (x : Scan σ α) (post : α → σ → Prop) : Prop :=
  ∀ a s', (x m s).1 = some (a, s') → post a s'

theorem Leads.mono {x : Scan σ α} {p weaker : α → σ → Prop} (h : Leads m s x p)
    (hp : ∀ a s', p a s' → weaker a s') : Leads m s x weaker :=
  fun a s' he => hp a s' (h a s' he)

theorem Meets.leads {x : Scan σ α} {post : α → σ → Prop} (h : Meets ok m s x post) : Leads m s x post := by
  obtain ⟨b, u, he, hp⟩ := h.ends
  intro a s' hr
  grind

theorem Leads.and {x : Scan σ α} {p mr : α → σ → Prop} (h : Leads m s x p) (h' : Leads m s x mr) :
    Leads m s x fun a s' => p a s' ∧ mr a s' :=
  fun a s' he => ⟨h a s' he, h' a s' he⟩

theorem leads_pure {a : α} {post : α → σ → Prop} (h : post a s) : Leads m s (pure a : Scan σ α) post := by
  rintro b s' he
  cases he
  exact h

theorem leads_bind {x : Scan σ α} {f : α → Scan σ β} {middle : α → σ → Prop} {post : β → σ → Prop}
    (hx : Leads m s x middle) (hf : ∀ a s', middle a s' → Leads m s' (f a) post) :
    Leads m s (x >>= f) post := by
  intro b u he
  change (andThen x f m s).1 = some (b, u) at he
  unfold andThen at he
  split at he
  · cases he
  next a s' r heq => exact hf a s' (hx a s' (by rw [heq])) b u he

theorem leads_ite {c : Prop} [Decidable c] {x y : Scan σ α} {post : α → σ → Prop}
    (hx : c → Leads m s x post) (hy : ¬c → Leads m s y post) :
    Leads m s (if c then x else y) post := by
  by_cases hc : c
  · rw [if_pos hc]
    exact hx hc
  · rw [if_neg hc]
    exact hy hc

theorem leads_modify {g : σ → σ} {f : Unit → Scan σ β} {post : β → σ → Prop}
    (h : Leads m (g s) (f ()) post) : Leads m s (modify g >>= f) post := h

theorem leads_change {g : σ → σ} {post : Unit → σ → Prop} (h : post () (g s)) : Leads m s (modify g) post := by
  rintro a s' he
  cases he
  exact h

theorem leads_get {f : σ → Scan σ β} {post : β → σ → Prop} (h : Leads m s (f s) post) :
    Leads m s (get >>= f) post := h

theorem leads_byte {a : Nat} {f : UInt8 → Scan σ β} {post : β → σ → Prop}
    (h : Leads m s (f (m a)) post) : Leads m s (byte a >>= f) post := h

theorem leads_word16 {a : Nat} {f : UInt16 → Scan σ β} {post : β → σ → Prop}
    (h : Leads m s (f (load16 m a)) post) : Leads m s (word16 a >>= f) post := h

theorem leads_word32 {a : Nat} {f : UInt32 → Scan σ β} {post : β → σ → Prop}
    (h : Leads m s (f (load32 m a)) post) : Leads m s (word32 a >>= f) post := h

theorem leads_word64 {a : Nat} {f : UInt64 → Scan σ β} {post : β → σ → Prop}
    (h : Leads m s (f (load64 m a)) post) : Leads m s (word64 a >>= f) post := h

theorem leads_loop {turn : ι → Scan σ (ι ⊕ α)} (iv : ι → σ → Prop) {post : α → σ → Prop}
    (ht : ∀ i s, iv i s → Leads m s (turn i) fun next s' =>
      match next with
      | .inl j => iv j s'
      | .inr a => post a s')
    {fuel : Nat} {i : ι} (h : iv i s) : Leads m s (loop turn fuel i) post := by
  induction fuel generalizing i s with
  | zero =>
    intro a s' he
    cases he
  | succ fuel ih =>
    refine leads_bind (ht i s h) fun next s' hn => ?_
    grind [leads_pure]

end

end scan
