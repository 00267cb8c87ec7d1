import OsKernel.Threads.Queue

/-!
# A queue is a list

Any sequence of calls on the queues, and between them any stores to the `next` fields of
elements that are in no queue. `held` is what each queue should hold then, by lists alone;
`chain` is what it does hold, by the links that are followed from `first` on.

`Threads/Queue.lean` has what one operation does to a queue that holds a list. Here it becomes
a statement about all sequences, from empty queues with whatever is in the links: first in,
first out, told as an equation between what has been added, what has been taken, and what is
held. The links left behind in elements that are out may hold anything, and may be changed;
only the condition that an element is in one queue at a time is asked for (`Legal`).

`removeAll` gives the first element away with the whole chain behind it, and stores nothing.
-/

set_option autoImplicit false

namespace OsKernel.Threads

variable {Q T : Type} [DecidableEq Q] [DecidableEq T]

namespace Queues

/-- `remove_all`: nothing is stored to the links. -/
def removeAll (s : Queues Q T) (q : Q) : Option T × Queues Q T :=
  ((s.ends q).first, { s with
    ends := Function.update s.ends q ⟨none, none⟩
    left := Function.update s.left q (s.joined q) })

/-- A `next` field is stored to. -/
def stale (s : Queues Q T) (t : T) (v : Option T) : Queues Q T :=
  { s with next := Function.update s.next t v }

/-- The `n`-th element of the chain that begins at `p`. -/
def chain (s : Queues Q T) (p : Option T) : Nat → Option T
  | 0 => p
  | n + 1 => (chain s p n).bind s.next

end Queues

/-- A call on a queue, or a store to the link of an element. -/
inductive Op (Q T : Type)
  | add (q : Q) (t : T)
  | remove (q : Q)
  | removeAll (q : Q)
  | stale (t : T) (v : Option T)

namespace Op

/-- What the call does, and the pointer that it returns. -/
def run (s : Queues Q T) : Op Q T → Option T × Queues Q T
  | add q t => (none, s.add q t)
  | remove q => s.remove q
  | removeAll q => s.removeAll q
  | stale t v => (none, s.stale t v)

/-- An element that is added, or whose link is stored to, is in no queue. -/
def Permitted (l : Q → List T) : Op Q T → Prop
  | add _ t => ∀ q, t ∉ l q
  | remove _ => True
  | removeAll _ => True
  | stale t _ => ∀ q, t ∉ l q

/-- What the queues hold after the call. -/
def hold (l : Q → List T) : Op Q T → Q → List T
  | add q t => Function.update l q (l q ++ [t])
  | remove q => Function.update l q (l q).tail
  | removeAll q => Function.update l q []
  | stale _ _ => l

def runAll (s : Queues Q T) (ops : List (Op Q T)) : Queues Q T :=
  ops.foldl (fun s op => (op.run s).2) s

def holdAll (l : Q → List T) (ops : List (Op Q T)) : Q → List T := ops.foldl hold l

/-- Every call is permitted when it comes. -/
def Legal : (Q → List T) → List (Op Q T) → Prop
  | _, [] => True
  | l, op :: ops => op.Permitted l ∧ Legal (op.hold l) ops

/-- What the call adds to `q`. -/
def adds (q : Q) : Op Q T → List T
  | add q' t => if q' = q then [t] else []
  | _ => []

/-- What the call takes from `q`. -/
def takes (l : Q → List T) (q : Q) : Op Q T → List T
  | remove q' => if q' = q then (l q).head?.toList else []
  | removeAll q' => if q' = q then l q else []
  | _ => []

/-- All that is added to `q`, in this order. -/
def added (q : Q) (ops : List (Op Q T)) : List T := ops.flatMap (adds q)

/-- All that is taken from `q`, in this order. -/
def taken (q : Q) : (Q → List T) → List (Op Q T) → List T
  | _, [] => []
  | l, op :: ops => op.takes l q ++ taken q (op.hold l) ops

variable {l : Q → List T}

omit [DecidableEq T] in
theorem adds_takes (op : Op Q T) (q : Q) : l q ++ op.adds q = op.takes l q ++ op.hold l q := by
  cases op with
  | add q' t =>
    by_cases hq : q' = q
    · subst hq
      simp [adds, takes, hold]
    · simp [adds, takes, hold, hq, Function.update_of_ne (Ne.symm hq)]
  | remove q' =>
    by_cases hq : q' = q
    · subst hq
      cases hl : l q' <;> simp [adds, takes, hold, hl]
    · simp [adds, takes, hold, hq, Function.update_of_ne (Ne.symm hq)]
  | removeAll q' =>
    by_cases hq : q' = q
    · subst hq
      simp [adds, takes, hold]
    · simp [adds, takes, hold, hq, Function.update_of_ne (Ne.symm hq)]
  | stale t v => simp [adds, takes, hold]

omit [DecidableEq T] in
/-- First in, first out: what was added is what was taken, and behind it what is still held. -/
theorem added_eq (q : Q) (ops : List (Op Q T)) :
    l q ++ added q ops = taken q l ops ++ holdAll l ops q := by
  induction ops generalizing l with
  | nil => exact List.append_nil _
  | cons op ops ih =>
    calc l q ++ added q (op :: ops) = l q ++ op.adds q ++ added q ops := by
          rw [added, List.flatMap_cons, ← added, List.append_assoc]
      _ = op.takes l q ++ (op.hold l q ++ added q ops) := by
          rw [adds_takes, List.append_assoc]
      _ = taken q l (op :: ops) ++ holdAll l (op :: ops) q := by
          rw [ih, taken, List.append_assoc, holdAll, holdAll, List.foldl_cons]

end Op

variable {s : Queues Q T} {l : Q → List T}

omit [DecidableEq Q] [DecidableEq T] in
theorem Queues.chain_succ {p : Option T} {n : Nat} : s.chain p (n + 1) = s.chain (p.bind s.next) n := by
  induction n with
  | zero => rfl
  | succ n ih => rw [Queues.chain, ih, Queues.chain]

omit [DecidableEq Q] [DecidableEq T] in
theorem Queues.chain_none {n : Nat} : s.chain none n = none := by
  induction n with
  | zero => rfl
  | succ n ih => rw [Queues.chain, ih, Option.bind_none]

omit [DecidableEq Q] [DecidableEq T] in
/-- The chain through linked elements is their list. -/
theorem chain_of_linked {m : List T} (h : Linked s.next m) (n : Nat) :
    s.chain m.head? n = m[n]? := by
  induction m generalizing n with
  | nil => exact Queues.chain_none
  | cons t m ih =>
    cases n with
    | zero => rfl
    | succ n =>
      rw [Queues.chain_succ, List.head?_cons, Option.bind_some, h.1, ih h.2, List.getElem?_cons_succ]

namespace Threaded

omit [DecidableEq T] in
theorem removeAll (h : Threaded s l) (q : Q) :
    (s.removeAll q).1 = (l q).head? ∧
      Threaded (s.removeAll q).2 (Function.update l q []) := by
  have hsub : ∀ q' u, u ∈ Function.update l q [] q' → u ∈ l q' := by
    intro q' u hu
    by_cases hq : q' = q
    · subst hq
      rw [Function.update_self] at hu
      exact absurd hu List.not_mem_nil
    · rwa [Function.update_of_ne hq] at hu
  refine ⟨h.first q, ?_, ?_, ?_, ?_, fun q₁ q₂ u h₁ h₂ => ?_, ?_⟩
  · intro q'
    by_cases hq : q' = q
    · subst hq
      simp [Queues.removeAll]
    · simpa [Queues.removeAll, Function.update_of_ne hq] using h.first q'
  · intro q'
    by_cases hq : q' = q
    · subst hq
      simp [Queues.removeAll]
    · simpa [Queues.removeAll, Function.update_of_ne hq] using h.last q'
  · intro q'
    by_cases hq : q' = q
    · subst hq
      rw [Function.update_self]
      exact trivial
    · rw [Function.update_of_ne hq]
      exact h.linked q'
  · intro q'
    by_cases hq : q' = q
    · subst hq
      rw [Function.update_self]
      exact List.nodup_nil
    · rw [Function.update_of_ne hq]
      exact h.nodup q'
  · exact h.disjoint q₁ q₂ u (hsub q₁ u h₁) (hsub q₂ u h₂)
  · intro q'
    by_cases hq : q' = q
    · subst hq
      simp [Queues.removeAll]
    · simpa [Queues.removeAll, Function.update_of_ne hq] using h.fifo q'

omit [DecidableEq Q] in
theorem stale (h : Threaded s l) {t : T} (ht : ∀ q, t ∉ l q) (v : Option T) :
    Threaded (s.stale t v) l where
  first := h.first
  last := h.last
  linked q := (h.linked q).congr fun u hu =>
    Function.update_of_ne (fun hut : u = t => ht q (hut ▸ hu)) _ _
  nodup := h.nodup
  disjoint := h.disjoint
  fifo := h.fifo

omit [DecidableEq T] in
/-- What `remove` gives back, and what the queue keeps. -/
theorem remove (h : Threaded s l) (q : Q) :
    (s.remove q).1 = (l q).head? ∧
      Threaded (s.remove q).2 (Function.update l q (l q).tail) := by
  cases hl : l q with
  | nil =>
    have hsame : Function.update l q [] = l := by rw [← hl, Function.update_eq_self]
    rw [h.remove_nil hl, List.tail_nil, hsame]
    exact ⟨rfl, h⟩
  | cons t m =>
    obtain ⟨s', hs', hthreaded⟩ := h.remove_cons hl
    rw [hs']
    exact ⟨rfl, hthreaded⟩

theorem run (h : Threaded s l) {op : Op Q T} (hop : op.Permitted l) :
    Threaded (op.run s).2 (op.hold l) := by
  cases op with
  | add q t => exact h.add hop
  | remove q => exact (h.remove q).2
  | removeAll q => exact (h.removeAll q).2
  | stale t v => exact h.stale hop v

theorem runAll (h : Threaded s l) {ops : List (Op Q T)} (hops : Op.Legal l ops) :
    Threaded (Op.runAll s ops) (Op.holdAll l ops) := by
  induction ops generalizing s l with
  | nil => exact h
  | cons op ops ih => exact ih (h.run hops.1) hops.2

end Threaded

/-- Queue `q` holds the list `m`, by its links and its ends, and hands it out so. -/
structure IsFifo (s : Queues Q T) (q : Q) (m : List T) : Prop where
  chain : ∀ n, s.chain (s.ends q).first n = m[n]?
  nodup : m.Nodup
  last : m ≠ [] → (s.ends q).last = m.getLast?
  remove : (s.remove q).1 = m.head?
  remove_none : (s.remove q).1 = none ↔ m = []
  removeAll : ∀ n, (s.removeAll q).2.chain (s.removeAll q).1 n = m[n]?
  emptied : ((s.removeAll q).2.ends q) = ⟨none, none⟩

omit [DecidableEq T] in
theorem Threaded.isFifo (h : Threaded s l) (q : Q) : IsFifo s q (l q) where
  chain n := by rw [h.first, chain_of_linked (h.linked q)]
  nodup := h.nodup q
  last _ := h.last q
  remove := (h.remove q).1
  remove_none := by rw [(h.remove q).1, List.head?_eq_none_iff]
  removeAll n := by
    rw [(h.removeAll q).1]
    exact chain_of_linked (s := (s.removeAll q).2) (h.linked q) n
  emptied := Function.update_self ..

/-- After any legal calls, whatever the links were at first, each queue is the list of what was added
to it and not yet taken, in the order in which it was added. -/
theorem queue_fifo (next : T → Option T) {ops : List (Op Q T)} (hops : Op.Legal (fun _ => []) ops)
    (q : Q) :
    IsFifo (Op.runAll (Queues.empty next) ops) q (Op.holdAll (fun _ => []) ops q) ∧
      Op.added q ops = Op.taken q (fun _ => []) ops ++ Op.holdAll (fun _ => []) ops q := by
  refine ⟨((Threaded.empty next).runAll hops).isFifo q, ?_⟩
  exact Op.added_eq (l := fun _ => []) q ops

/-- An element that leaves with `remove_all`, has its link changed, and is added again. -/
def reused : List (Op Unit Nat) :=
  [.add () 1, .add () 2, .remove (), .stale 1 (some 2), .removeAll (), .stale 2 (some 1), .add () 2]

theorem queue_fifo_reused :
    IsFifo (Op.runAll (Queues.empty fun _ => some 1) reused) () (Op.holdAll (fun _ => []) reused ()) ∧
      Op.added () reused = Op.taken () (fun _ => []) reused ++ Op.holdAll (fun _ => []) reused () :=
  queue_fifo _ (by simp [reused, Op.Legal, Op.Permitted, Op.hold]) ()

end OsKernel.Threads
