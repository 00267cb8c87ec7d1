import Mathlib.Algebra.GroupWithZero.Nat
import Mathlib.Logic.Function.Basic
import Mathlib.Data.List.Basic

/-!
# Queues through one link field

`Queue<T>` of the kernel keeps two ends and threads its elements through `T::next`. There is
one such field in a thread, so all queues of threads live in the same links, and adding a
thread to a second queue breaks the first. `Queues` is the links with the ends of every queue,
`Threaded` says which list each queue holds.

That is why the queues are modelled by links at all, and not as lists: a list cannot be
broken. That a thread is in one queue at most is proved for the threads
(`Threads/Place.lean`), and what is needed of a queue is proved here under that condition,
once for every type of element. The link of a thread that has left a queue keeps its value,
and `add` overwrites it, as in the source.

Each operation is under the queue's lock and is one step.

`remove_all`, which no queue of threads is asked for, follows with the calls of a whole run in
`Threads/Fifo.lean`.
-/

set_option autoImplicit false

namespace OsKernel.Threads

/-- The ends of a queue; no element is the null pointer. -/
structure Ends (T : Type) where
  first : Option T
  last : Option T

/-- The `next` fields, and the ends of each queue. What has joined and left a queue, oldest first,
is remembered beside it, and nothing reads that. -/
structure Queues (Q T : Type) where
  next : T → Option T
  ends : Q → Ends T
  joined : Q → List T
  left : Q → List T

/-- The elements are linked in this order, and the last one to nothing. -/
def Linked {T : Type} (next : T → Option T) : List T → Prop
  | [] => True
  | t :: l => next t = l.head? ∧ Linked next l

variable {Q T : Type} [DecidableEq Q] [DecidableEq T]

namespace Queues

/-- Every queue as its constructor leaves it. -/
def empty (next : T → Option T) : Queues Q T where
  next := next
  ends _ := ⟨none, none⟩
  joined _ := []
  left _ := []

/-- The links and the ends of `q` after `add`. -/
def link (s : Queues Q T) (q : Q) (t : T) : (T → Option T) × Ends T :=
  let next := Function.update s.next t none
  match (s.ends q).first, (s.ends q).last with
  | none, _ => (next, ⟨some t, some t⟩)
  | some f, some l => (Function.update next l (some t), ⟨some f, some t⟩)
  -- a store through the null pointer: no threaded queue gets here
  | some f, none => (next, ⟨some f, some t⟩)

def add (s : Queues Q T) (q : Q) (t : T) : Queues Q T where
  next := (s.link q t).1
  ends := Function.update s.ends q (s.link q t).2
  joined := Function.update s.joined q (s.joined q ++ [t])
  left := s.left

def remove (s : Queues Q T) (q : Q) : Option T × Queues Q T :=
  match (s.ends q).first with
  | none => (none, s)
  | some it =>
    let last := if s.next it = none then none else (s.ends q).last
    (some it, { s with
      ends := Function.update s.ends q ⟨s.next it, last⟩
      left := Function.update s.left q (s.left q ++ [it]) })

/-- What the queue holds, by what it remembers. -/
def contents (s : Queues Q T) (q : Q) : List T := (s.joined q).drop (s.left q).length

omit [DecidableEq T] in
theorem contents_remove_ne {s : Queues Q T} {q q' : Q} (h : q' ≠ q) :
    (s.remove q).2.contents q' = s.contents q' := by
  unfold remove contents
  cases (s.ends q).first with
  | none => rfl
  | some it => simp [Function.update_of_ne h]

theorem contents_add_ne {s : Queues Q T} {q q' : Q} (t : T) (h : q' ≠ q) :
    (s.add q t).contents q' = s.contents q' := by
  simp [contents, add, Function.update_of_ne h]

end Queues

/-- `l q` is what queue `q` holds, first to last. -/
structure Threaded (s : Queues Q T) (l : Q → List T) : Prop where
  first : ∀ q, (s.ends q).first = (l q).head?
  last : ∀ q, (s.ends q).last = (l q).getLast?
  linked : ∀ q, Linked s.next (l q)
  nodup : ∀ q, (l q).Nodup
  disjoint : ∀ q q' t, t ∈ l q → t ∈ l q' → q = q'
  fifo : ∀ q, s.joined q = s.left q ++ l q

omit [DecidableEq Q] [DecidableEq T] in
theorem Linked.congr {next next' : T → Option T} :
    ∀ {l : List T}, (∀ t ∈ l, next' t = next t) → Linked next l → Linked next' l := by
  intro l
  induction l with
  | nil => exact fun _ _ => trivial
  | cons t l ih =>
    intro h hl
    exact ⟨(h t List.mem_cons_self).trans hl.1, ih (fun u hu => h u (List.mem_cons_of_mem t hu)) hl.2⟩

/-- The store through `last`. -/
theorem Linked.append {next : T → Option T} {t : T} (ht : next t = none) :
    ∀ {l : List T} {u : T}, l.getLast? = some u → l.Nodup → t ∉ l → Linked next l →
      Linked (Function.update next u (some t)) (l ++ [t]) := by
  intro l
  induction l with
  | nil => intro u hu; simp at hu
  | cons v l ih =>
    intro u hu hnd htl hl
    cases l with
    | nil =>
      simp only [List.getLast?_singleton, Option.some.injEq] at hu
      subst hu
      have htv : t ≠ v := by simpa using htl
      simp [Linked, Function.update_of_ne htv, ht]
    | cons w l =>
      rw [List.getLast?_cons_cons] at hu
      have huv : v ≠ u := by
        intro h
        subst h
        exact (List.nodup_cons.mp hnd).1 (List.mem_of_getLast? hu)
      refine ⟨?_, ih hu (List.nodup_cons.mp hnd).2 (fun h => htl (List.mem_cons_of_mem v h)) hl.2⟩
      rw [Function.update_of_ne huv]
      exact hl.1

namespace Threaded

variable {s : Queues Q T} {l : Q → List T}

omit [DecidableEq Q] [DecidableEq T] in
theorem empty (next : T → Option T) : Threaded (Queues.empty next : Queues Q T) fun _ => [] where
  first _ := rfl
  last _ := rfl
  linked _ := trivial
  nodup _ := List.nodup_nil
  disjoint _ _ _ h := by simp at h
  fifo _ := rfl

/-- A thread that is in no queue joins `q` at the end. -/
theorem add (h : Threaded s l) {q : Q} {t : T} (ht : ∀ q', t ∉ l q') :
    Threaded (s.add q t) (Function.update l q (l q ++ [t])) := by
  have hnext : ∀ q', Linked (Function.update s.next t none) (l q') := by
    intro q'
    refine (h.linked q').congr fun u hu => Function.update_of_ne ?_ _ _
    intro hut
    exact ht q' (hut ▸ hu)
  have hnd : ∀ q', (Function.update l q (l q ++ [t]) q').Nodup := by
    intro q'
    by_cases hq : q' = q
    · subst hq
      rw [Function.update_self]
      exact List.nodup_append.mpr ⟨h.nodup q', by simp, by
        intro u hu v hv huv
        exact ht q' (List.mem_singleton.mp hv ▸ huv ▸ hu)⟩
    · rw [Function.update_of_ne hq]
      exact h.nodup q'
  have hdis : ∀ q₁ q₂ u, u ∈ Function.update l q (l q ++ [t]) q₁ →
      u ∈ Function.update l q (l q ++ [t]) q₂ → q₁ = q₂ := by
    intro q₁ q₂ u
    by_cases h₁ : q₁ = q
    · subst h₁
      by_cases h₂ : q₂ = q₁
      · exact fun _ _ => h₂.symm
      · rw [Function.update_self, Function.update_of_ne h₂]
        intro hu hu'
        rcases List.mem_append.mp hu with hu | hu
        · exact h.disjoint _ _ u hu hu'
        · rw [List.mem_singleton.mp hu] at hu'
          exact absurd hu' (ht q₂)
    · by_cases h₂ : q₂ = q
      · subst h₂
        rw [Function.update_self, Function.update_of_ne h₁]
        intro hu hu'
        rcases List.mem_append.mp hu' with hu' | hu'
        · exact h.disjoint _ _ u hu hu'
        · rw [List.mem_singleton.mp hu'] at hu
          exact absurd hu (ht q₁)
      · rw [Function.update_of_ne h₁, Function.update_of_ne h₂]
        exact h.disjoint _ _ u
  have hfifo : ∀ q', (s.add q t).joined q' =
      (s.add q t).left q' ++ Function.update l q (l q ++ [t]) q' := by
    intro q'
    by_cases hq : q' = q
    · subst hq
      simp [Queues.add, h.fifo]
    · simp [Queues.add, Function.update_of_ne hq, h.fifo]
  cases hl : l q with
  | nil =>
    have hf : (s.ends q).first = none := by rw [h.first, hl]; rfl
    have hs : s.link q t = (Function.update s.next t none, ⟨some t, some t⟩) := by
      simp only [Queues.link, hf]
    rw [hl] at hnd hdis hfifo
    refine ⟨?_, ?_, ?_, hnd, hdis, hfifo⟩
    all_goals rw [Queues.add, hs]
    · intro q'
      by_cases hq : q' = q
      · subst hq; simp
      · simpa [Function.update_of_ne hq] using h.first q'
    · intro q'
      by_cases hq : q' = q
      · subst hq; simp
      · simpa [Function.update_of_ne hq] using h.last q'
    · intro q'
      by_cases hq : q' = q
      · subst hq
        simp [Linked]
      · rw [Function.update_of_ne hq]
        exact hnext q'
  | cons f m =>
    have hf : (s.ends q).first = some f := by rw [h.first, hl]; rfl
    obtain ⟨u, hu⟩ : ∃ u, (l q).getLast? = some u := by
      rw [hl]
      exact ⟨_, List.getLast?_eq_some_getLast (List.cons_ne_nil f m)⟩
    have hlast : (s.ends q).last = some u := by rw [h.last, hu]
    have huq : u ∈ l q := List.mem_of_getLast? hu
    have hs : s.link q t = (Function.update (Function.update s.next t none) u (some t),
        ⟨some f, some t⟩) := by
      simp only [Queues.link, hf, hlast]
    rw [← hl]
    refine ⟨?_, ?_, ?_, hnd, hdis, hfifo⟩
    all_goals rw [Queues.add, hs]
    · intro q'
      by_cases hq : q' = q
      · subst hq; simp [hl]
      · simpa [Function.update_of_ne hq] using h.first q'
    · intro q'
      by_cases hq : q' = q
      · subst hq; simp
      · simpa [Function.update_of_ne hq] using h.last q'
    · intro q'
      by_cases hq : q' = q
      · subst hq
        rw [Function.update_self]
        exact Linked.append (Function.update_self ..) hu (h.nodup q') (ht q') (hnext q')
      · rw [Function.update_of_ne hq]
        -- the last element of `q` is in no other queue
        refine (hnext q').congr fun v hv => Function.update_of_ne ?_ _ _
        intro hvu
        exact hq (h.disjoint q' q u (hvu ▸ hv) huq)

omit [DecidableEq Q] [DecidableEq T] in
theorem ends_of_nil (h : Threaded s l) {q : Q} (hl : l q = []) : (s.ends q).first = none := by
  rw [h.first, hl]
  rfl

omit [DecidableEq Q] [DecidableEq T] in
theorem contents_eq (h : Threaded s l) (q : Q) : s.contents q = l q := by
  rw [Queues.contents, h.fifo, List.drop_left]

omit [DecidableEq T] in
theorem remove_nil (h : Threaded s l) {q : Q} (hl : l q = []) : s.remove q = (none, s) := by
  simp only [Queues.remove, h.ends_of_nil hl]

omit [DecidableEq T] in
/-- What `remove` gives back is the head, and the queue keeps the rest. -/
theorem remove_cons (h : Threaded s l) {q : Q} {t : T} {m : List T} (hl : l q = t :: m) :
    ∃ s', s.remove q = (some t, s') ∧ Threaded s' (Function.update l q m) := by
  have hf : (s.ends q).first = some t := by rw [h.first, hl]; rfl
  have hlk := h.linked q
  rw [hl] at hlk
  have hnd := h.nodup q
  rw [hl] at hnd
  refine ⟨_, by simp only [Queues.remove, hf]; rfl, ?_⟩
  have hsub : ∀ q' u, u ∈ Function.update l q m q' → u ∈ l q' := by
    intro q' u hu
    by_cases hq : q' = q
    · subst hq
      rw [Function.update_self] at hu
      rw [hl]
      exact List.mem_cons_of_mem t hu
    · rwa [Function.update_of_ne hq] at hu
  refine ⟨?_, ?_, ?_, ?_, ?_, ?_⟩
  · intro q'
    by_cases hq : q' = q
    · subst hq; simp [hlk.1]
    · simpa [Function.update_of_ne hq] using h.first q'
  · intro q'
    by_cases hq : q' = q
    · subst hq
      have hla : (s.ends q').last = (t :: m).getLast? := by rw [h.last, hl]
      cases m with
      | nil => simp [hlk.1]
      | cons u m => simp [hlk.1, hla]
    · simpa [Function.update_of_ne hq] using h.last q'
  · intro q'
    by_cases hq : q' = q
    · subst hq
      rw [Function.update_self]
      exact hlk.2
    · rw [Function.update_of_ne hq]
      exact h.linked q'
  · intro q'
    by_cases hq : q' = q
    · subst hq
      rw [Function.update_self]
      exact (List.nodup_cons.mp hnd).2
    · rw [Function.update_of_ne hq]
      exact h.nodup q'
  · intro q₁ q₂ u h₁ h₂
    exact h.disjoint q₁ q₂ u (hsub q₁ u h₁) (hsub q₂ u h₂)
  · intro q'
    by_cases hq : q' = q
    · subst hq
      simp [h.fifo, hl]
    · simp [Function.update_of_ne hq, h.fifo]

end Threaded

end OsKernel.Threads
