import DMTree.Lib.Bytes

/-!
# Code that works on named buffers

`Code ι α` is straight-line code with loads and stores of byte ranges of buffers with names in `ι`.
Where the buffers lie in a flat memory is decided when the code is run: `run place` puts buffer `b` at
address `place b`, and nothing keeps buffers from overlapping.

`Within size p I Q` says that the code stays inside buffers of the given sizes and loads only from
buffers that have been written as a whole, and `run_eq` that such code cannot tell where its buffers
lie as long as they do not overlap.
-/

namespace Buffers

open Bytes

/-- Code that returns an `α`. -/
inductive Code (ι α : Type) where
  | ret (a : α)
  /-- A failed assertion, or undefined behaviour. -/
  | fail
  | load (b : ι) (off len : Nat) (k : List UInt8 → Code ι α)
  | store (b : ι) (off : Nat) (bs : List UInt8) (k : Code ι α)

namespace Code

variable {ι α β : Type}

/-- Sequential composition. -/
def bind : Code ι α → (α → Code ι β) → Code ι β
  | ret a, f => f a
  | fail, _ => fail
  | load b off len k, f => load b off len fun bs => bind (k bs) f
  | store b off bs k, f => store b off bs (bind k f)

instance : Monad (Code ι) where
  pure := ret
  bind := bind

/-- Load `len` bytes. -/
def get (b : ι) (off len : Nat) : Code ι (List UInt8) := load b off len ret

/-- Store bytes. -/
def put (b : ι) (off : Nat) (bs : List UInt8) : Code ι Unit := store b off bs (ret ())

/-- `assert` -/
def assert (c : Bool) : Code ι Unit := if c then ret () else fail

/-- The meaning of code when buffer `b` lies at address `place b`. -/
def run (place : ι → Nat) : Code ι α → Mem → Option (α × Mem)
  | ret a, m => some (a, m)
  | fail, _ => none
  | load b off len k, m => run place (k (bytesAt m (place b + off) len)) m
  | store b off bs k, m => run place k (setBytes m (place b + off) bs)

section Run

variable {place : ι → Nat} {m : Mem}

theorem run_bind (p : Code ι α) (f : α → Code ι β) :
    ∀ m, run place (p >>= f) m = (run place p m).bind fun x => run place (f x.1) x.2 := by
  change ∀ m, run place (bind p f) m = _
  induction p with
  | ret a => exact fun _ => rfl
  | fail => exact fun _ => rfl
  | load b off len k ih => exact fun m => ih _ m
  | store b off bs k ih => exact fun m => ih _

@[simp] theorem run_pure (a : α) : run place (pure a : Code ι α) m = some (a, m) := rfl

@[simp] theorem run_get (b : ι) (off len : Nat) :
    run place (get b off len) m = some (bytesAt m (place b + off) len, m) := rfl

@[simp] theorem run_put (b : ι) (off : Nat) (bs : List UInt8) :
    run place (put b off bs) m = some ((), setBytes m (place b + off) bs) := rfl

theorem run_bind_of {p : Code ι α} {f : α → Code ι β} {a : α} {m' : Mem}
    (h : run place p m = some (a, m')) : run place (p >>= f) m = run place (f a) m' := by
  rw [run_bind, h]
  rfl

theorem run_bind_none {p : Code ι α} {f : α → Code ι β} (h : run place p m = none) :
    run place (p >>= f) m = none := by
  rw [run_bind, h]
  rfl

end Run

/-! ## Code that stays inside its buffers -/

/-- Starting with the buffers of `I` written, the code stays inside the buffers, loads only from those
that are written, and returns with `Q`. A buffer becomes written by a store of all of it. -/
def Within (size : ι → Nat) : Code ι α → Set ι → (Set ι → α → Prop) → Prop
  | ret a, I, Q => Q I a
  | fail, _, _ => True
  | load b off len k, I, Q =>
    b ∈ I ∧ off + len ≤ size b ∧ ∀ bs : List UInt8, bs.length = len → Within size (k bs) I Q
  | store b off bs k, I, Q =>
    off + bs.length ≤ size b ∧
      ((b ∈ I ∧ Within size k I Q) ∨
        (off = 0 ∧ bs.length = size b ∧ Within size k (insert b I) Q))

variable {size : ι → Nat} {I : Set ι}

theorem Within.bind {p : Code ι α} {f : α → Code ι β} {Q : Set ι → α → Prop}
    {R : Set ι → β → Prop} (hp : p.Within size I Q) (hf : ∀ J a, Q J a → (f a).Within size J R) :
    (p >>= f).Within size I R := by
  change (Code.bind p f).Within size I R
  induction p generalizing I with
  | ret a => exact hf I a hp
  | fail => trivial
  | load b off len k ih => exact ⟨hp.1, hp.2.1, fun bs hbs => ih bs (hp.2.2 bs hbs)⟩
  | store b off bs k ih =>
    refine ⟨hp.1, ?_⟩
    rcases hp.2 with ⟨hb, hk⟩ | ⟨ho, hl, hk⟩
    · exact Or.inl ⟨hb, ih hk⟩
    · exact Or.inr ⟨ho, hl, ih hk⟩

theorem within_pure {a : α} {Q : Set ι → α → Prop} (h : Q I a) :
    (pure a : Code ι α).Within size I Q := h

theorem within_get {b : ι} {off len : Nat} (hb : b ∈ I) (h : off + len ≤ size b) :
    (get b off len).Within size I fun J bs => J = I ∧ bs.length = len :=
  ⟨hb, h, fun _ hbs => ⟨rfl, hbs⟩⟩

theorem within_put {b : ι} {off : Nat} {bs : List UInt8} (hb : b ∈ I)
    (h : off + bs.length ≤ size b) : (put b off bs).Within size I fun J _ => J = I :=
  ⟨h, Or.inl ⟨hb, rfl⟩⟩

/-- A store of a whole buffer. -/
theorem within_init {b : ι} {bs : List UInt8} (h : bs.length = size b) :
    (put b 0 bs).Within size I fun J _ => J = insert b I :=
  ⟨by omega, Or.inr ⟨rfl, h, rfl⟩⟩

theorem Within.ite {c : Prop} [Decidable c] {p q : Code ι α} {Q : Set ι → α → Prop}
    (hp : c → p.Within size I Q) (hq : ¬ c → q.Within size I Q) :
    (if c then p else q).Within size I Q := by
  split
  · exact hp ‹_›
  · exact hq ‹_›

/-! ## Where the buffers lie -/

/-- Buffers of the given sizes do not overlap. -/
def Separate (size place : ι → Nat) : Prop :=
  ∀ b c, b ≠ c → place b + size b ≤ place c ∨ place c + size c ≤ place b

/-- Two memories have the same contents in the buffers of `I`. -/
def Agree (size place place' : ι → Nat) (I : Set ι) (m m' : Mem) : Prop :=
  ∀ b ∈ I, ∀ o < size b, m (place b + o) = m' (place' b + o)

variable {place place' : ι → Nat} {m m' : Mem}

theorem Agree.read (h : Agree size place place' I m m') {b : ι} (hb : b ∈ I) {off len : Nat}
    (hlen : off + len ≤ size b) :
    bytesAt m (place b + off) len = bytesAt m' (place' b + off) len := by
  refine bytesAt_congr fun i hi => ?_
  rw [Nat.add_assoc, Nat.add_assoc]
  exact h b hb (off + i) (by omega)

/-- A store keeps the agreement on every other byte, since buffers do not overlap. -/
theorem Agree.write (hs : Separate size place) (hs' : Separate size place') {b : ι} {off : Nat}
    {bs : List UInt8} (hlen : off + bs.length ≤ size b)
    (h : ∀ c ∈ I, ∀ o < size c, (c = b → o < off ∨ off + bs.length ≤ o) →
      m (place c + o) = m' (place' c + o)) :
    Agree size place place' I (setBytes m (place b + off) bs)
      (setBytes m' (place' b + off) bs) := by
  intro c hc o ho
  by_cases hcb : c = b
  · subst hcb
    by_cases hin : off ≤ o ∧ o < off + bs.length
    · obtain ⟨i, rfl⟩ := Nat.exists_eq_add_of_le hin.1
      rw [← Nat.add_assoc, ← Nat.add_assoc, setBytes_inside (i := i) (by omega),
        setBytes_inside (i := i) (by omega)]
    · rw [setBytes_outside (by omega), setBytes_outside (by omega)]
      exact h c hc o ho fun _ => by omega
  · have h1 := hs c b hcb
    have h2 := hs' c b hcb
    rw [setBytes_outside (by omega), setBytes_outside (by omega)]
    exact h c hc o ho fun he => absurd he hcb

/-- Code that stays inside its buffers does the same wherever they lie. -/
theorem run_sim (hs : Separate size place) (hs' : Separate size place') (p : Code ι α)
    {Q : Set ι → α → Prop} :
    ∀ {I : Set ι} {m m' : Mem}, p.Within size I Q → Agree size place place' I m m' →
      (run place p m = none ∧ run place' p m' = none) ∨
        ∃ a n n' J, run place p m = some (a, n) ∧ run place' p m' = some (a, n') ∧
          Agree size place place' J n n' ∧ Q J a := by
  induction p with
  | ret a =>
    intro I m m' hp hm
    exact Or.inr ⟨a, m, m', I, rfl, rfl, hm, hp⟩
  | fail =>
    intro I m m' hp hm
    exact Or.inl ⟨rfl, rfl⟩
  | load b off len k ih =>
    intro I m m' hp hm
    have hk := ih _ (hp.2.2 _ (length_bytesAt (m := m) (a := place b + off))) hm
    unfold run
    rwa [← hm.read hp.1 hp.2.1]
  | store b off bs k ih =>
    intro I m m' hp hm
    rcases hp.2 with ⟨hb, hk⟩ | ⟨rfl, hl, hk⟩
    · exact ih hk (Agree.write hs hs' hp.1 fun c hc o ho _ => hm c hc o ho)
    · refine ih hk (Agree.write hs hs' hp.1 fun c hc o ho hout => ?_)
      rcases Set.mem_insert_iff.mp hc with rfl | hc
      · have := hout rfl
        omega
      · exact hm c hc o ho

/-- The result of code that writes its buffers before it loads from them depends neither on where the
buffers lie nor on what was in memory. -/
theorem run_eq (hs : Separate size place) (hs' : Separate size place') {p : Code ι α}
    {Q : Set ι → α → Prop} (hp : p.Within size ∅ Q) (m m' : Mem) :
    (run place p m).map Prod.fst = (run place' p m').map Prod.fst := by
  have hagree : Agree size place place' ∅ m m' := fun b hb => absurd hb (Set.notMem_empty b)
  rcases run_sim hs hs' p hp hagree with ⟨h, h'⟩ | ⟨a, n, n', J, h, h', -⟩
  · rw [h, h']
  · rw [h, h']
    rfl

end Code

end Buffers
