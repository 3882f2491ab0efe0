import Mathlib.Logic.Relation
import Mathlib.Data.List.Basic
import Mathlib.Data.List.Induction

/-!
# Interactive programs

A program is a tree of questions to its environment: `ask e k` performs
the effect `e` and goes on with `k` at the answer, `choose` leaves a
scheduling decision open. `Sat` says what a program does under every
answer the environment may give, with an assertion checked before each
effect; it is sound for every reachable configuration (`Sat.reaches`).

`Act` adds exceptions, `par` runs several programs interleaved effect by
effect, and `Shuffle` is what such a run leaves in a log.
-/

namespace Interaction

/-- Programs over effects `E`, an effect `e` being answered in `A e`. -/
inductive Prog (E : Type) (A : E → Type) (α : Type) where
  | ret (a : α)
  | ask (e : E) (k : A e → Prog E A α)
  | choose (k : Nat → Prog E A α)

namespace Prog

variable {E : Type} {A : E → Type} {α β σ : Type}

def bind : Prog E A α → (α → Prog E A β) → Prog E A β
  | .ret a, f => f a
  | .ask e k, f => .ask e fun a => (k a).bind f
  | .choose k, f => .choose fun i => (k i).bind f

def perform (e : E) : Prog E A (A e) := .ask e .ret

/-! ## What a program does -/

section Sat

variable (env : σ → (e : E) → A e → σ → Prop) (inv : σ → E → Prop)

/-- From `s`, whatever the environment answers, `inv` holds before every
effect and `post` of every result. -/
def Sat : Prog E A α → σ → (α → σ → Prop) → Prop
  | .ret a, s, post => post a s
  | .ask e k, s, post => inv s e ∧ ∀ a s', env s e a s' → Sat (k a) s' post
  | .choose k, s, post => ∀ i, Sat (k i) s post

/-- One answered effect, or one scheduling choice. -/
inductive Step : σ × Prog E A α → σ × Prog E A α → Prop
  | ask {s s' : σ} {e : E} {k : A e → Prog E A α} {a : A e} (h : env s e a s') :
      Step (s, .ask e k) (s', k a)
  | choose {s : σ} {k : Nat → Prog E A α} (i : Nat) : Step (s, .choose k) (s, k i)

variable {env inv}

variable {p : Prog E A α}

theorem Sat.mono {s : σ} {post post' : α → σ → Prop} (h : Sat env inv p s post)
    (himp : ∀ a s, post a s → post' a s) :
    Sat env inv p s post' := by
  induction p generalizing s with
  | ret a => exact himp a s h
  | ask e k ih => exact ⟨h.1, fun a s' he => ih a (h.2 a s' he)⟩
  | choose k ih => exact fun i => ih i (h i)

theorem Sat.bind {f : α → Prog E A β} {s : σ} {post : β → σ → Prop}
    (h : Sat env inv p s fun a s' => Sat env inv (f a) s' post) :
    Sat env inv (p.bind f) s post := by
  induction p generalizing s with
  | ret a => exact h
  | ask e k ih => exact ⟨h.1, fun a s' he => ih a (h.2 a s' he)⟩
  | choose k ih => exact fun i => ih i (h i)

variable {post : α → σ → Prop}

theorem Sat.step {p p' : Prog E A α} {s s' : σ} (h : Sat env inv p s post)
    (hstep : Step env (s, p) (s', p')) : Sat env inv p' s' post := by
  cases hstep with
  | ask he => exact h.2 _ _ he
  | choose i => exact h i

theorem Sat.reaches {s : σ} (h : Sat env inv p s post) {c : σ × Prog E A α}
    (hrun : Relation.ReflTransGen (Step env) (s, p) c) : Sat env inv c.2 c.1 post := by
  induction hrun with
  | refl => exact h
  | tail _ hstep ih => exact ih.step hstep

end Sat

/-! ## One run -/

/-- The run in which every question gets the answer of `answer` and every
scheduling choice is 0. -/
def drive (answer : (s : σ) → (e : E) → A e) (after : σ → (e : E) → A e → σ) :
    Prog E A α → σ → σ × α
  | .ret a, s => (s, a)
  | .ask e k, s => (k (answer s e)).drive answer after (after s e (answer s e))
  | .choose k, s => (k 0).drive answer after s

theorem drive_reaches {env : σ → (e : E) → A e → σ → Prop} {answer : (s : σ) → (e : E) → A e}
    {after : σ → (e : E) → A e → σ} (henv : ∀ s e, env s e (answer s e) (after s e (answer s e)))
    (p : Prog E A α) (s : σ) :
    Relation.ReflTransGen (Step env) (s, p)
      ((p.drive answer after s).1, .ret (p.drive answer after s).2) := by
  induction p generalizing s with
  | ret a => exact .refl
  | ask e k ih => exact .head (.ask (henv s e)) (ih _ _)
  | choose k ih => exact .head (.choose 0) (ih 0 s)

/-! ## Running programs together -/

def results : List (Prog E A α) → Option (List α)
  | [] => some []
  | .ret a :: ps => (results ps).map (a :: ·)
  | _ :: _ => none

/-- Run the programs interleaved, one effect at a time in any order, until
all have returned; `none` when the fuel runs out. -/
def par : Nat → List (Prog E A α) → Prog E A (Option (List α))
  | 0, _ => .ret none
  | fuel + 1, ps =>
      match results ps with
      | some as => .ret (some as)
      | none => .choose fun i =>
          match ps[i]? with
          | some (.ask e k) => .ask e fun a => par fuel (ps.set i (k a))
          | some (.choose k) => .choose fun j => par fuel (ps.set i (k j))
          | _ => par fuel ps

theorem results_eq_some {ps : List (Prog E A α)} {as : List α} (h : results ps = some as) :
    ps = as.map .ret := by
  induction ps generalizing as with
  | nil =>
    obtain rfl := Option.some.inj h
    rfl
  | cons p ps ih =>
    cases p with
    | ret a =>
      obtain ⟨bs, hbs, rfl⟩ := Option.map_eq_some_iff.mp h
      rw [ih hbs, List.map_cons]
    | ask e k => cases h
    | choose k => cases h

/-- The scheduler's rule: a relation between the state and the programs,
kept by every effect of every one of them. -/
theorem Sat.par {env : σ → (e : E) → A e → σ → Prop} {inv : σ → E → Prop}
    {R : σ → List (Prog E A α) → Prop} {post : Option (List α) → σ → Prop}
    (hask : ∀ s ps i e k, R s ps → ps[i]? = some (.ask e k) →
      inv s e ∧ ∀ a s', env s e a s' → R s' (ps.set i (k a)))
    (hchoose : ∀ s ps i k, R s ps → ps[i]? = some (.choose k) → ∀ j, R s (ps.set i (k j)))
    (hdone : ∀ s as, R s (as.map .ret) → post (some as) s)
    (hfuel : ∀ s ps, R s ps → post none s) :
    ∀ (fuel : Nat) {s : σ} {ps : List (Prog E A α)}, R s ps →
      Sat env inv (par fuel ps) s post
  | 0, s, ps, h => hfuel s ps h
  | fuel + 1, s, ps, h => by
    rw [Prog.par]
    cases hres : results ps with
    | some as =>
      rw [results_eq_some hres] at h
      exact hdone s as h
    | none =>
      intro i
      dsimp only
      cases hi : ps[i]? with
      | none => exact Sat.par hask hchoose hdone hfuel fuel h
      | some p =>
        cases p with
        | ret a => exact Sat.par hask hchoose hdone hfuel fuel h
        | ask e k =>
          obtain ⟨hinv, hnext⟩ := hask s ps i e k h hi
          exact ⟨hinv, fun a s' he =>
            Sat.par hask hchoose hdone hfuel fuel (hnext a s' he)⟩
        | choose k =>
          exact fun j =>
            Sat.par hask hchoose hdone hfuel fuel (hchoose s ps i k h hi j)

end Prog

/-! ## Exceptions -/

/-- How a program can fail: a thrown error, or loops cut off by the fuel of
the model (never caught). -/
inductive Failure where
  | thrown (message : String)
  | outOfFuel
deriving Repr, DecidableEq

/-- Programs that may fail. -/
def Act (E : Type) (A : E → Type) (α : Type) : Type := Prog E A (Except Failure α)

namespace Act

variable {E : Type} {A : E → Type} {α β σ : Type}

def pure (a : α) : Act E A α := .ret (.ok a)

def bind (p : Act E A α) (f : α → Act E A β) : Act E A β :=
  Prog.bind p fun r =>
    match r with
    | .ok a => f a
    | .error e => .ret (.error e)

instance : Monad (Act E A) where
  pure := Act.pure
  bind := Act.bind

def throw (message : String) : Act E A α := .ret (.error (.thrown message))

def outOfFuel : Act E A α := .ret (.error .outOfFuel)

/-- Perform one effect that cannot fail. -/
def perform (e : E) : Act E A (A e) := .ask e fun a => .ret (.ok a)

/-- An answer that may be an exception. -/
def ofExcept : Except String α → Act E A α
  | .ok a => .ret (.ok a)
  | .error message => .ret (.error (.thrown message))

/-- `try … catch`. -/
def tryCatch (p : Act E A α) (handler : String → Act E A α) : Act E A α :=
  Prog.bind p fun r =>
    match r with
    | .error (.thrown message) => handler message
    | r => .ret r

/-- `Promise.all` of actions none of which throws. -/
def all (fuel : Nat) (ps : List (Act E A α)) : Act E A (List α) :=
  Prog.bind (Prog.par fuel ps) fun r =>
    match r with
    | none => .ret (.error .outOfFuel)
    | some rs => .ret (rs.mapM id)

section Sat

variable (env : σ → (e : E) → A e → σ → Prop) (inv : σ → E → Prop)

/-- `Prog.Sat`, the result being a value or a failure. -/
def Sat (p : Act E A α) (s : σ) (post : Except Failure α → σ → Prop) : Prop :=
  Prog.Sat env inv p s post

variable {env inv}

variable {s : σ}

theorem Sat.mono {p : Act E A α} {post post' : Except Failure α → σ → Prop}
    (h : Sat env inv p s post) (himp : ∀ r s, post r s → post' r s) : Sat env inv p s post' :=
  Prog.Sat.mono h himp

variable {post : Except Failure α → σ → Prop}

theorem Sat.pure {a : α} (h : post (.ok a) s) :
    Sat env inv (Pure.pure a : Act E A α) s post := h

theorem Sat.throw {message : String} (h : post (.error (.thrown message)) s) :
    Sat env inv (Act.throw message : Act E A α) s post := h

theorem Sat.outOfFuel (h : post (.error .outOfFuel) s) :
    Sat env inv (Act.outOfFuel : Act E A α) s post := h

theorem Sat.perform {e : E} {post : Except Failure (A e) → σ → Prop} (hinv : inv s e)
    (h : ∀ a s', env s e a s' → post (.ok a) s') :
    Sat env inv (Act.perform e : Act E A (A e)) s post := ⟨hinv, h⟩

theorem Sat.ofExcept {x : Except String α} (hok : ∀ a, x = .ok a → post (.ok a) s)
    (herror : ∀ message, x = .error message → post (.error (.thrown message)) s) :
    Sat env inv (Act.ofExcept x : Act E A α) s post := by
  cases x with
  | ok a => exact hok a rfl
  | error message => exact herror message rfl

theorem Sat.bind {p : Act E A α} {f : α → Act E A β} {M : Except Failure α → σ → Prop}
    {post : Except Failure β → σ → Prop} (hp : Sat env inv p s M)
    (hok : ∀ a s', M (.ok a) s' → Sat env inv (f a) s' post)
    (herror : ∀ e s', M (.error e) s' → post (.error e) s') :
    Sat env inv (p >>= f) s post := by
  refine Prog.Sat.bind (Prog.Sat.mono hp ?_)
  intro r s' h
  cases r with
  | ok a => exact hok a s' h
  | error e => exact herror e s' h

theorem Sat.tryCatch {p : Act E A α} {handler : String → Act E A α}
    {mid post : Except Failure α → σ → Prop} (hp : Sat env inv p s mid)
    (hok : ∀ a s', mid (.ok a) s' → post (.ok a) s')
    (hthrown : ∀ message s', mid (.error (.thrown message)) s' →
      Sat env inv (handler message) s' post)
    (hfuel : ∀ s', mid (.error .outOfFuel) s' → post (.error .outOfFuel) s') :
    Sat env inv (Act.tryCatch p handler) s post := by
  refine Prog.Sat.bind (Prog.Sat.mono hp ?_)
  intro r s' h
  match r with
  | .ok a => exact hok a s' h
  | .error (.thrown message) => exact hthrown message s' h
  | .error .outOfFuel => exact hfuel s' h

end Sat

/-- A postcondition for a value and one for a thrown error; none is asked of
a run the fuel cut off. -/
def Ends (Q : α → σ → Prop) (thrown : σ → Prop) : Except Failure α → σ → Prop
  | .ok a, s => Q a s
  | .error (.thrown _), s => thrown s
  | .error .outOfFuel, _ => True

/-- `Sat` with one postcondition for values and one for thrown errors. -/
def Holds (env : σ → (e : E) → A e → σ → Prop) (inv : σ → E → Prop) (p : Act E A α) (s : σ)
    (Q : α → σ → Prop) (thrown : σ → Prop) : Prop :=
  Sat env inv p s (Ends Q thrown)

namespace Holds

variable {env : σ → (e : E) → A e → σ → Prop} {inv : σ → E → Prop} {s : σ}
  {Q : α → σ → Prop} {thrown : σ → Prop}

theorem mono {p : Act E A α} {Q' : α → σ → Prop} {thrown' : σ → Prop}
    (h : Holds env inv p s Q thrown) (hok : ∀ a s', Q a s' → Q' a s')
    (hthrown : ∀ s', thrown s' → thrown' s') : Holds env inv p s Q' thrown' := by
  refine Sat.mono h ?_
  intro r s' hr
  match r with
  | .ok a => exact hok a s' hr
  | .error (.thrown _) => exact hthrown s' hr
  | .error .outOfFuel => trivial

theorem pure {a : α} (h : Q a s) : Holds env inv (Pure.pure a : Act E A α) s Q thrown := h

theorem throw {message : String} (h : thrown s) :
    Holds env inv (Act.throw message : Act E A α) s Q thrown := h

theorem outOfFuel : Holds env inv (Act.outOfFuel : Act E A α) s Q thrown := trivial

theorem perform {e : E} {Q : A e → σ → Prop} (hinv : inv s e)
    (h : ∀ a s', env s e a s' → Q a s') :
    Holds env inv (Act.perform e : Act E A (A e)) s Q thrown := ⟨hinv, h⟩

theorem ofExcept {x : Except String α} (hok : ∀ a, x = .ok a → Q a s)
    (hthrown : ∀ message, x = .error message → thrown s) :
    Holds env inv (Act.ofExcept x : Act E A α) s Q thrown :=
  Sat.ofExcept hok hthrown

theorem bind {p : Act E A α} {f : α → Act E A β} {Q' : β → σ → Prop}
    (h : Holds env inv p s Q thrown) (hf : ∀ a s', Q a s' → Holds env inv (f a) s' Q' thrown) :
    Holds env inv (p >>= f) s Q' thrown := by
  refine Sat.bind h hf ?_
  intro e s' he
  match e with
  | .thrown _ => exact he
  | .outOfFuel => trivial

theorem tryCatch {p : Act E A α} {handler : String → Act E A α} {thrown' : σ → Prop}
    (h : Holds env inv p s Q thrown')
    (hcatch : ∀ message s', thrown' s' → Holds env inv (handler message) s' Q thrown) :
    Holds env inv (Act.tryCatch p handler) s Q thrown :=
  Sat.tryCatch h (fun _ _ h => h) hcatch fun _ _ => trivial

end Holds

/-- The values of results none of which was thrown. -/
theorem mapM_id_of_ends {Q : α → σ → Prop} {rs : List (Except Failure α)}
    (h : ∀ r ∈ rs, ∃ s, Ends Q (fun _ => False) r s) :
    (∃ as, rs = as.map .ok ∧ rs.mapM id = Except.ok as) ∨
      rs.mapM id = Except.error Failure.outOfFuel := by
  induction rs with
  | nil => exact .inl ⟨[], rfl, rfl⟩
  | cons r rs ih =>
    obtain ⟨s, hr⟩ := h r (List.mem_cons_self ..)
    rcases ih fun r hr => h r (List.mem_cons_of_mem _ hr) with ⟨as, rfl, has⟩ | hfuel
    · match r with
      | .ok a => exact .inl ⟨a :: as, rfl, by rw [List.mapM_cons, has]; rfl⟩
      | .error (.thrown _) => exact False.elim hr
      | .error .outOfFuel => exact .inr (by rw [List.mapM_cons]; rfl)
    · match r with
      | .ok a => exact .inr (by rw [List.mapM_cons, hfuel]; rfl)
      | .error (.thrown _) => exact False.elim hr
      | .error .outOfFuel => exact .inr (by rw [List.mapM_cons]; rfl)

end Act

/-! ## Interleavings -/

/-- `l` is an interleaving of the lists `ls`. -/
inductive Shuffle {α : Type} : List (List α) → List α → Prop
  | nil {ls : List (List α)} (h : ∀ l ∈ ls, l = []) : Shuffle ls []
  | snoc {ls : List (List α)} {l : List α} {i : Nat} {li : List α} {x : α} (h : Shuffle ls l)
      (hi : ls[i]? = some li) : Shuffle (ls.set i (li ++ [x])) (l ++ [x])

variable {α : Type}

/-- More from one of the lists. -/
theorem Shuffle.extend {ls : List (List α)} {l : List α} {i : Nat} {li : List α} (h : Shuffle ls l)
    (hi : ls[i]? = some li) (xs : List α) :
    Shuffle (ls.set i (li ++ xs)) (l ++ xs) := by
  induction xs using List.reverseRecOn with
  | nil =>
    obtain ⟨hlt, rfl⟩ := List.getElem?_eq_some_iff.mp hi
    rw [List.append_nil, List.append_nil, List.set_getElem_self hlt]
    exact h
  | append_singleton xs x ih =>
    have hlt := (List.getElem?_eq_some_iff.mp hi).1
    have hnext := ih.snoc (x := x) (List.getElem?_set_self hlt)
    rwa [List.set_set, List.append_assoc, List.append_assoc] at hnext

/-- Elements of an interleaving come from one of the lists. -/
theorem Shuffle.mem {ls : List (List α)} {l : List α} (h : Shuffle ls l) {x : α} (hx : x ∈ l) :
    ∃ li ∈ ls, x ∈ li := by
  induction h with
  | nil _ => cases hx
  | @snoc ls l i li y _ hi ih =>
    have hlt := (List.getElem?_eq_some_iff.mp hi).1
    have hnew : li ++ [y] ∈ ls.set i (li ++ [y]) := List.mem_set hlt _
    rcases List.mem_append.mp hx with hx | hx
    · obtain ⟨lj, hlj, hxj⟩ := ih hx
      obtain ⟨j, hj⟩ := List.getElem?_of_mem hlj
      by_cases hij : i = j
      · subst hij
        obtain rfl := Option.some.inj (hi.symm.trans hj)
        exact ⟨_, hnew, List.mem_append_left _ hxj⟩
      · refine ⟨lj, List.mem_of_getElem? (i := j) ?_, hxj⟩
        rw [List.getElem?_set_ne hij, hj]
    · exact ⟨_, hnew, List.mem_append_right _ hx⟩

/-- An interleaving has the elements of each of the lists. -/
theorem Shuffle.subset {ls : List (List α)} {l : List α} (h : Shuffle ls l) {i : Nat} {li : List α}
    (hi : ls[i]? = some li) : li ⊆ l := by
  induction h generalizing i li with
  | nil hnil => simp [hnil li (List.mem_of_getElem? hi)]
  | @snoc ls l j lj y _ hj ih =>
    by_cases hij : j = i
    · subst hij
      rw [List.getElem?_set_self (List.getElem?_eq_some_iff.mp hj).1] at hi
      obtain rfl := Option.some.inj hi
      exact List.append_subset.mpr ⟨List.subset_append_of_subset_left _ (ih hj), by simp⟩
    · rw [List.getElem?_set_ne hij] at hi
      exact List.subset_append_of_subset_left _ (ih hi)

/-- Keeping what belongs to one of the lists alone gives that list's share,
in its order. -/
theorem Shuffle.filter {ls : List (List α)} {l : List α} (h : Shuffle ls l) {p : α → Bool} {i : Nat}
    (hother : ∀ j lj, ls[j]? = some lj → j ≠ i → ∀ x ∈ lj, p x = false) :
    l.filter p = (ls[i]?.getD []).filter p := by
  induction h with
  | @nil ls hnil =>
    cases hi : ls[i]? with
    | none => rfl
    | some li => simp [hnil li (List.mem_of_getElem? hi)]
  | @snoc ls l j lj y _ hj ih =>
    have hlt := (List.getElem?_eq_some_iff.mp hj).1
    have hother' : ∀ k lk, ls[k]? = some lk → k ≠ i → ∀ x ∈ lk, p x = false := by
      intro k lk hk hki x hx
      by_cases hjk : j = k
      · subst hjk
        obtain rfl := Option.some.inj (hj.symm.trans hk)
        exact hother j (lj ++ [y]) (List.getElem?_set_self hlt) hki x (List.mem_append_left _ hx)
      · refine hother k lk ?_ hki x hx
        rw [List.getElem?_set_ne hjk, hk]
    rw [List.filter_append, ih hother']
    by_cases hji : j = i
    · subst hji
      rw [List.getElem?_set_self hlt, hj]
      simp
    · have hy := hother j (lj ++ [y]) (List.getElem?_set_self hlt) hji y (by simp)
      rw [List.getElem?_set_ne hji]
      simp [hy]

section Composition

variable {α : Type} {ls ms : List (List α)} {l m : List α}

/-- One interleaving after another. -/
theorem Shuffle.append (hl : Shuffle ls l) (hm : Shuffle ms m) (hlen : ls.length = ms.length) :
    Shuffle (List.zipWith (· ++ ·) ls ms) (l ++ m) := by
  induction hm with
  | @nil ms hnil =>
    have hzip : List.zipWith (· ++ ·) ls ms = ls := by
      refine List.ext_getElem (by simp [hlen]) ?_
      intro i hi hi'
      rw [List.getElem_zipWith, hnil _ (List.getElem_mem _), List.append_nil]
    rw [hzip, List.append_nil]
    exact hl
  | @snoc ms m i mi x _ hi ih =>
    rw [List.length_set] at hlen
    have hims : i < ms.length := (List.getElem?_eq_some_iff.mp hi).1
    have hils : i < ls.length := hlen ▸ hims
    have hset : List.zipWith (· ++ ·) ls (ms.set i (mi ++ [x])) =
        (List.zipWith (· ++ ·) ls ms).set i ((ls[i] ++ mi) ++ [x]) := by
      refine List.ext_getElem (by simp) ?_
      intro j hj hj'
      rw [List.getElem_zipWith, List.getElem_set, List.getElem_set, List.getElem_zipWith]
      by_cases hij : i = j
      · subst hij
        rw [if_pos rfl, if_pos rfl, List.append_assoc]
      · rw [if_neg hij, if_neg hij]
    rw [hset, ← List.append_assoc]
    refine .snoc (ih hlen) ?_
    rw [List.getElem?_zipWith, hi, List.getElem?_eq_getElem hils]

/-- A first list that contributes nothing. -/
theorem Shuffle.cons_nil (h : Shuffle ls l) : Shuffle ([] :: ls) l := by
  induction h with
  | nil hnil => exact .nil (by simpa using hnil)
  | @snoc ls l i li x _ hi ih =>
    have := Shuffle.snoc (i := i + 1) (x := x) ih hi
    exact this

/-- One list alone, among lists that contribute nothing. -/
theorem Shuffle.single (l : List α) (n : Nat) : Shuffle (l :: List.replicate n []) l := by
  induction l using List.reverseRecOn with
  | nil =>
    refine .nil ?_
    intro l hl
    rcases List.mem_cons.mp hl with rfl | hl
    · rfl
    · exact (List.mem_replicate.mp hl).2
  | append_singleton l x ih => exact Shuffle.snoc (i := 0) ih rfl

/-- What one list contributes comes before all else. -/
theorem Shuffle.cons (h : Shuffle ls l) (m : List α) : Shuffle (m :: ls) (m ++ l) := by
  have happend := (Shuffle.single m ls.length).append h.cons_nil (by simp)
  have hzip : List.zipWith (· ++ ·) (List.replicate ls.length []) ls = ls := by
    refine List.ext_getElem (by simp) ?_
    intro i hi hi'
    simp
  rwa [List.zipWith_cons_cons, List.append_nil, hzip] at happend

/-- The lists one after another. -/
theorem Shuffle.flatten (ls : List (List α)) : Shuffle ls ls.flatten := by
  induction ls with
  | nil => exact .nil (by simp)
  | cons l ls ih => exact ih.cons l

end Composition

/-! ## Logging programs together -/

section Logs

variable {E : Type} {A : E → Type} {α ρ : Type} {record : (e : E) → A e → List ρ → Prop}
  {inv : List ρ → E → Prop}

/-- The state is a log, to which an answered effect adds its records. -/
def LogEnv (record : (e : E) → A e → List ρ → Prop) (l : List ρ) (e : E) (a : A e)
    (l' : List ρ) : Prop :=
  ∃ r, record e a r ∧ l' = l ++ r

/-- Each program has written its list of `ls`, the log is an interleaving of
them, and each has its specification still to meet. -/
def Together (record : (e : E) → A e → List ρ → Prop) (inv : List ρ → E → Prop)
    (Q : Nat → α → List ρ → Prop) (l : List ρ) (ps : List (Prog E A (Except Failure α))) : Prop :=
  ∃ ls : List (List ρ), Shuffle ls l ∧ ls.length = ps.length ∧
    ∀ (i : Nat) (p : Prog E A (Except Failure α)) (li : List ρ), ps[i]? = some p →
      ls[i]? = some li → Act.Holds (LogEnv record) inv p li (Q i) fun _ => False

variable {Q : Nat → α → List ρ → Prop} {l : List ρ} {ps : List (Prog E A (Except Failure α))}

theorem Together.ask (hmono : ∀ l l' e, l ⊆ l' → inv l e → inv l' e)
    (h : Together record inv Q l ps) {i : Nat} {e : E} {k : A e → Prog E A (Except Failure α)}
    (hi : ps[i]? = some (.ask e k)) :
    inv l e ∧ ∀ a l', LogEnv record l e a l' → Together record inv Q l' (ps.set i (k a)) := by
  obtain ⟨ls, hshuffle, hlen, heach⟩ := h
  have hips : i < ps.length := (List.getElem?_eq_some_iff.mp hi).1
  have hils : i < ls.length := hlen ▸ hips
  have hli : ls[i]? = some ls[i] := List.getElem?_eq_getElem hils
  obtain ⟨hinv, hk⟩ := heach i _ _ hi hli
  refine ⟨hmono _ _ e (hshuffle.subset hli) hinv, ?_⟩
  rintro a l' ⟨r, hr, rfl⟩
  refine ⟨ls.set i (ls[i] ++ r), hshuffle.extend hli r, by simpa using hlen, ?_⟩
  intro j p lj hp hj
  by_cases hij : i = j
  · subst hij
    rw [List.getElem?_set_self hips] at hp
    rw [List.getElem?_set_self hils] at hj
    obtain rfl := Option.some.inj hp
    obtain rfl := Option.some.inj hj
    exact hk a _ ⟨r, hr, rfl⟩
  · rw [List.getElem?_set_ne hij] at hp hj
    exact heach j p lj hp hj

theorem Together.choose (h : Together record inv Q l ps) {i : Nat}
    {k : Nat → Prog E A (Except Failure α)} (hi : ps[i]? = some (.choose k)) (n : Nat) :
    Together record inv Q l (ps.set i (k n)) := by
  obtain ⟨ls, hshuffle, hlen, heach⟩ := h
  refine ⟨ls, hshuffle, by simpa using hlen, ?_⟩
  intro j p lj hp hj
  by_cases hij : i = j
  · subst hij
    rw [List.getElem?_set_self (List.getElem?_eq_some_iff.mp hi).1] at hp
    obtain rfl := Option.some.inj hp
    exact heach i _ lj hi hj n
  · rw [List.getElem?_set_ne hij] at hp
    exact heach j p lj hp hj

/-- All have returned: their values, or the fuel cut one of them off. -/
theorem Together.done {rs : List (Except Failure α)}
    (h : Together record inv Q l (rs.map .ret)) :
    (∃ (as : List α) (ls : List (List ρ)), rs = as.map .ok ∧ rs.mapM id = Except.ok as ∧
      Shuffle ls l ∧ ls.length = as.length ∧
      ∀ i a li, as[i]? = some a → ls[i]? = some li → Q i a li) ∨
      rs.mapM id = Except.error Failure.outOfFuel := by
  obtain ⟨ls, hshuffle, hlen, heach⟩ := h
  rw [List.length_map] at hlen
  have hends : ∀ i r li, rs[i]? = some r → ls[i]? = some li →
      Act.Ends (Q i) (fun _ => False) r li := by
    intro i r li hr hli
    exact heach i (.ret r) li (by rw [List.getElem?_map, hr]; rfl) hli
  have hnone : ∀ r ∈ rs, ∃ s : Nat × List ρ,
      Act.Ends (fun a s => Q s.1 a s.2) (fun _ => False) r s := by
    intro r hr
    obtain ⟨i, hi, rfl⟩ := List.getElem_of_mem hr
    have hils : i < ls.length := hlen ▸ hi
    have hend := hends i rs[i] ls[i] (List.getElem?_eq_getElem hi) (List.getElem?_eq_getElem hils)
    refine ⟨(i, ls[i]), ?_⟩
    match rs[i], hend with
    | .ok a, hend => exact hend
    | .error (.thrown _), hend => exact hend
    | .error .outOfFuel, _ => trivial
  rcases Act.mapM_id_of_ends hnone with ⟨as, rfl, has⟩ | hfuel
  · refine .inl ⟨as, ls, rfl, has, hshuffle, by simpa using hlen, ?_⟩
    intro i a li ha hli
    exact hends i (.ok a) li (by rw [List.getElem?_map, ha]; rfl) hli
  · exact .inr hfuel

/-- `Promise.all` of programs that do not throw: the log is an interleaving
of what each of them wrote. -/
theorem Act.Holds.all {fuel : Nat} {ps : List (Act E A α)} {ls : List (List ρ)}
    {thrown : List ρ → Prop} (hmono : ∀ l l' e, l ⊆ l' → inv l e → inv l' e)
    (hshuffle : Shuffle ls l) (hlen : ls.length = ps.length)
    (h : ∀ (i : Nat) (p : Act E A α) (li : List ρ), ps[i]? = some p → ls[i]? = some li →
      Act.Holds (LogEnv record) inv p li (Q i) fun _ => False) :
    Act.Holds (LogEnv record) inv (Act.all fuel ps) l
      (fun as l' => as.length = ps.length ∧ ∃ ls' : List (List ρ), Shuffle ls' l' ∧
        ls'.length = ps.length ∧ ∀ i a li, as[i]? = some a → ls'[i]? = some li → Q i a li)
      thrown := by
  have htogether : Together record inv Q l ps := ⟨ls, hshuffle, hlen, h⟩
  refine Prog.Sat.bind (Prog.Sat.par (R := fun l' qs => qs.length = ps.length ∧
    Together record inv Q l' qs) ?_ ?_ ?_ ?_ fuel ⟨rfl, htogether⟩)
  · intro l' qs i e k hqs hi
    obtain ⟨hinv, hnext⟩ := hqs.2.ask hmono hi
    exact ⟨hinv, fun a l'' he => ⟨by simpa using hqs.1, hnext a l'' he⟩⟩
  · intro l' qs i k hqs hi n
    exact ⟨by simpa using hqs.1, hqs.2.choose hi n⟩
  · intro l' rs hrs
    have hrslen : rs.length = ps.length := by simpa using hrs.1
    show Prog.Sat _ _ (Prog.ret (rs.mapM id)) _ _
    rcases hrs.2.done with ⟨as, ls', rfl, has, hshuffle', hlen', heach⟩ | hfuel
    · rw [has]
      rw [List.length_map] at hrslen
      exact ⟨hrslen, ls', hshuffle', hlen'.trans hrslen, heach⟩
    · rw [hfuel]
      trivial
  · intro l' qs hqs
    trivial

/-- What was written before does not matter. -/
theorem Act.Holds.shift {p : Act E A α} {Q : α → List ρ → Prop} {thrown : List ρ → Prop}
    (hmono : ∀ l l' e, l ⊆ l' → inv l e → inv l' e)
    (h : Act.Holds (LogEnv record) inv p [] Q thrown) (base : List ρ) :
    Act.Holds (LogEnv record) inv p base (fun a l => ∃ t, l = base ++ t ∧ Q a t)
      fun l => ∃ t, l = base ++ t ∧ thrown t := by
  have hrun : ∀ (p : Prog E A (Except Failure α)) (t : List ρ),
      Act.Holds (LogEnv record) inv p t Q thrown →
      Act.Holds (LogEnv record) inv p (base ++ t) (fun a l => ∃ t, l = base ++ t ∧ Q a t)
        fun l => ∃ t, l = base ++ t ∧ thrown t := by
    intro p
    induction p with
    | ret r =>
      intro t hr
      match r with
      | .ok a => exact ⟨t, rfl, hr⟩
      | .error (.thrown _) => exact ⟨t, rfl, hr⟩
      | .error .outOfFuel => trivial
    | ask e k ih =>
      intro t hask
      refine ⟨hmono _ _ e (List.subset_append_right _ _) hask.1, ?_⟩
      rintro a l ⟨r, hr, rfl⟩
      rw [List.append_assoc]
      exact ih a _ (hask.2 a _ ⟨r, hr, rfl⟩)
    | choose k ih => exact fun t hchoose i => ih i t (hchoose i)
  have h := hrun p [] h
  rwa [List.append_nil] at h

/-- The program writes nothing and does not throw. -/
def Act.Silent (record : (e : E) → A e → List ρ → Prop) (inv : List ρ → E → Prop)
    (p : Act E A α) : Prop :=
  ∀ l, Act.Holds (LogEnv record) inv p l (fun _ l' => l' = l) fun _ => False

namespace Act.Silent

variable {β : Type} {p : Act E A α}

theorem pure (a : α) : Silent record inv (Pure.pure a : Act E A α) := fun _ => rfl

theorem outOfFuel : Silent record inv (Act.outOfFuel : Act E A α) := fun _ => trivial

theorem perform {e : E} (hinv : ∀ l, inv l e) (hnone : ∀ a r, record e a r → r = []) :
    Silent record inv (Act.perform e : Act E A (A e)) := by
  intro l
  refine Act.Holds.perform (hinv l) ?_
  rintro a l' ⟨r, hr, rfl⟩
  rw [hnone a r hr, List.append_nil]

theorem bind {f : α → Act E A β} (h : Silent record inv p)
    (hf : ∀ a, Silent record inv (f a)) : Silent record inv (p >>= f) := by
  intro l
  refine (h l).bind ?_
  rintro a l' rfl
  exact hf a l'

theorem andThen {f : α → Act E A β} {Q : β → List ρ → Prop} {thrown : List ρ → Prop}
    {l : List ρ} (h : Silent record inv p)
    (hf : ∀ a, Act.Holds (LogEnv record) inv (f a) l Q thrown) :
    Act.Holds (LogEnv record) inv (p >>= f) l Q thrown := by
  refine Act.Holds.bind ((h l).mono (fun _ _ h => h) fun _ h => h.elim) ?_
  rintro a l' rfl
  exact hf a

end Act.Silent

end Logs

/-! ## Traces -/

section Traces

variable {E : Type} {A : E → Type} {α β : Type}

/-- The state is the list of the effects performed; `answers` says which
answers they may get. -/
def TraceEnv (answers : (e : E) → A e → Prop) (trace : List E) (e : E) (a : A e)
    (trace' : List E) : Prop :=
  answers e a ∧ trace' = trace ++ [e]

/-- Whatever was performed before, `p` performs only effects it may perform;
`Q` holds of its value, and it throws only if `thrown`. -/
def Act.Within (answers : (e : E) → A e → Prop) (may : E → Prop) (p : Act E A α) (Q : α → Prop)
    (thrown : Prop) : Prop :=
  ∀ trace, Act.Holds (TraceEnv answers) (fun _ e => may e) p trace (fun a _ => Q a)
    fun _ => thrown

namespace Act.Within

variable {answers : (e : E) → A e → Prop} {may : E → Prop} {Q : α → Prop} {thrown : Prop}

variable {p : Act E A α}

/-- What was performed before does not matter. -/
theorem of_holds {trace : List E}
    (h : Act.Holds (TraceEnv answers) (fun _ e => may e) p trace (fun a _ => Q a) fun _ => thrown) :
    Within answers may p Q thrown := by
  intro trace'
  have hrun : ∀ (p : Prog E A (Except Failure α)) (t t' : List E),
      Act.Holds (TraceEnv answers) (fun _ e => may e) p t (fun a _ => Q a) (fun _ => thrown) →
      Act.Holds (TraceEnv answers) (fun _ e => may e) p t' (fun a _ => Q a) fun _ => thrown := by
    intro p
    induction p with
    | ret r =>
      intro t t' hr
      match r with
      | .ok a => exact hr
      | .error (.thrown _) => exact hr
      | .error .outOfFuel => trivial
    | ask e k ih =>
      intro t t' hask
      refine ⟨hask.1, ?_⟩
      rintro a _ ⟨ha, rfl⟩
      exact ih a _ _ (hask.2 a _ ⟨ha, rfl⟩)
    | choose k ih => exact fun t t' hchoose i => ih i t t' (hchoose i)
  exact hrun p trace trace' h

theorem mono {Q' : α → Prop} {thrown' : Prop} (h : Within answers may p Q thrown)
    (hok : ∀ a, Q a → Q' a) (hthrown : thrown → thrown') :
    Within answers may p Q' thrown' :=
  fun trace => (h trace).mono (fun a _ => hok a) fun _ => hthrown

theorem pure {a : α} (h : Q a) : Within answers may (Pure.pure a : Act E A α) Q thrown :=
  fun _ => h

theorem outOfFuel : Within answers may (Act.outOfFuel : Act E A α) Q thrown := fun _ => trivial

theorem perform {e : E} {Q : A e → Prop} (hmay : may e) (h : ∀ a, answers e a → Q a) :
    Within answers may (Act.perform e : Act E A (A e)) Q thrown :=
  fun _ => Act.Holds.perform hmay fun a _ ha => h a ha.1

theorem ofExcept {x : Except String α} (hok : ∀ a, x = .ok a → Q a)
    (hthrown : ∀ message, x = .error message → thrown) :
    Within answers may (Act.ofExcept x : Act E A α) Q thrown :=
  fun _ => Act.Holds.ofExcept hok hthrown

theorem bind {f : α → Act E A β} {Q' : β → Prop} (h : Within answers may p Q thrown)
    (hf : ∀ a, Q a → Within answers may (f a) Q' thrown) :
    Within answers may (p >>= f) Q' thrown :=
  fun trace => (h trace).bind fun a trace' ha => hf a ha trace'

theorem tryCatch {handler : String → Act E A α} {thrown' : Prop}
    (h : Within answers may p Q thrown')
    (hcatch : ∀ message, thrown' → Within answers may (handler message) Q thrown) :
    Within answers may (Act.tryCatch p handler) Q thrown :=
  fun trace => Act.Holds.tryCatch (h trace) fun message trace' h => hcatch message h trace'

theorem all {fuel : Nat} {ps : List (Act E A α)}
    (h : ∀ p ∈ ps, Within answers may p Q False) :
    Within answers may (Act.all fuel ps) (fun as => ∀ a ∈ as, Q a) thrown := by
  intro trace
  refine Prog.Sat.bind (Prog.Sat.par
    (R := fun _ qs => ∀ q ∈ qs, Within answers may q Q False) ?_ ?_ ?_ ?_ fuel h)
  · intro trace qs i e k hqs hi
    have hq := hqs _ (List.mem_of_getElem? hi)
    refine ⟨(hq trace).1, ?_⟩
    rintro a trace' ⟨ha, -⟩ q hmem
    rcases List.mem_or_eq_of_mem_set hmem with hmem | rfl
    · exact hqs q hmem
    · exact of_holds ((hq trace).2 a _ ⟨ha, rfl⟩)
  · intro trace qs i k hqs hi j q hmem
    rcases List.mem_or_eq_of_mem_set hmem with hmem | rfl
    · exact hqs q hmem
    · exact of_holds (hqs _ (List.mem_of_getElem? hi) trace j)
  · intro trace rs hrs
    have hends : ∀ r ∈ rs, ∃ s : List E, Act.Ends (fun a _ => Q a) (fun _ => False) r s :=
      fun r hr => ⟨trace, hrs _ (List.mem_map_of_mem hr) trace⟩
    show Prog.Sat _ _ (Prog.ret (rs.mapM id)) _ _
    rcases Act.mapM_id_of_ends hends with ⟨as, rfl, has⟩ | hfuel
    · rw [has]
      intro a ha
      exact hrs _ (List.mem_map_of_mem (List.mem_map_of_mem ha)) trace
    · rw [hfuel]
      trivial
  · exact fun _ _ _ => trivial

/-- In every run, only such effects were performed. -/
theorem of_reaches (h : Within answers may p Q thrown) {trace : List E}
    {q : Prog E A (Except Failure α)}
    (hrun : Relation.ReflTransGen (Prog.Step (TraceEnv answers)) ([], p) (trace, q)) :
    ∀ e ∈ trace, may e := by
  suffices hall : ∀ c, Relation.ReflTransGen (Prog.Step (TraceEnv answers)) ([], p) c →
      ∀ e ∈ c.1, may e from hall _ hrun
  intro c hc
  induction hc with
  | refl => exact fun _ hmem => nomatch hmem
  | @tail c c' hc hstep ih =>
    have hsat := Prog.Sat.reaches (h []) hc
    cases hstep with
    | choose i => exact ih
    | ask ha =>
      obtain ⟨-, rfl⟩ := ha
      intro e he
      rcases List.mem_append.mp he with he | he
      · exact ih e he
      · rw [List.mem_singleton.mp he]
        exact hsat.1

end Act.Within

end Traces

end Interaction
