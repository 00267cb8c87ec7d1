import OsKernel.Format.Text

/-!
# Any bytes as a format

A format need not be a well-formed one: `dopr` goes over any bytes up to the first 0. It ends, and
looks at no byte behind the 0, unless the last byte before it is a `w`: as a conversion that one
takes the next byte with it, whatever it is.

A turn of the loop either reads the next byte or goes on to a later stage for the same byte, and
what is left to do is counted that way: eight for each byte not read, and the rank of the stage.
The bound on the fuel is that count at the start. Each byte lets `dopr` take at most three words
from the `va_list`, which is what a `long double` takes.

What `fmtfp` puts out for a `%f` is not modelled, so nothing is said here about the part of a format
behind a `%f` that is reached: there the model has stopped with `Stop.floating`. The other
floating-point conversions only take their argument, and are modelled like the rest.
-/

set_option autoImplicit false

namespace OsKernel.Format

open Lib

variable {fmt : Nat → Byte} {va : Nat → Word} {maxlen : Int} {n : Nat}

/-- The format ends at place `n`, and not in a `w`. -/
structure Closed (fmt : Nat → Byte) (n : Nat) : Prop where
  nul : fmt n = 0
  last : ∀ i, i + 1 = n → fmt i ≠ chr 'w'

/-- The byte at hand is one of the format, and there are at most three arguments for each. -/
structure Inside (fmt : Nat → Byte) (n : Nat) (d : Dopr) : Prop where
  pos : 0 < d.format
  le : d.format ≤ n + 1
  ch : d.ch = fmt (d.format - 1)
  args : d.args ≤ 3 * (d.format - 1)

/-- How far a stage is from the next byte. -/
def Stage.rank : Stage → Nat
  | default => 0
  | flags => 6
  | min => 5
  | dot => 4
  | max => 3
  | mod => 2
  | conv => 1
  | done => 0

/-- What is left to do. -/
def Dopr.left (n : Nat) (d : Dopr) : Nat := 8 * (n + 1 - d.format) + d.stage.rank

theorem Stage.rank_le (z : Stage) : z.rank ≤ 6 := by cases z <;> decide

/-- A byte that is not the 0 is followed by another. -/
theorem Inside.lt {d : Dopr} (h : Inside fmt n d) (hf : Closed fmt n) (hch : d.ch ≠ 0) :
    d.format ≤ n := by
  have hle := h.le
  by_contra hgt
  have hlast : d.format - 1 = n := by omega
  exact hch (by rw [h.ch, hlast, hf.nul])

/-- One more byte is read. -/
theorem Inside.next {d e : Dopr} (h : Inside fmt n d) (hle : d.format ≤ n)
    (hformat : e.format = d.format) (hargs : e.args ≤ d.args + 3) : Inside fmt n (e.next fmt) := by
  have hd := h.args
  have hpos := h.pos
  refine ⟨Nat.succ_pos _, ?_, rfl, ?_⟩
  · show e.format + 1 ≤ n + 1
    omega
  · show e.args ≤ 3 * (e.format + 1 - 1)
    omega

/-- Only a stage is left behind. -/
theorem Inside.stay {d : Dopr} (h : Inside fmt n d) (z : Stage) :
    Inside fmt n { d with stage := z } :=
  ⟨h.pos, h.le, h.ch, h.args⟩

theorem left_next {d e : Dopr} (hle : d.format ≤ n) (hformat : e.format = d.format) :
    (e.next fmt).left n < d.left n := by
  have hrank := Stage.rank_le (e.next fmt).stage
  show 8 * (n + 1 - (e.format + 1)) + _ < 8 * (n + 1 - d.format) + _
  omega

/-- At most three arguments are taken, and no byte of the format but behind a `w`. -/
def Moves (d : Dopr) (r : Except Stop Dopr) : Prop :=
  r ≠ .error .fuel ∧ ∀ e, r = .ok e →
    e.args ≤ d.args + 3 ∧ (e.format = d.format ∨ d.ch = chr 'w' ∧ e.format = d.format + 1)

theorem Moves.ok {d e : Dopr} (hargs : e.args ≤ d.args + 3) (hformat : e.format = d.format) :
    Moves d (.ok e) := by
  refine ⟨by simp, fun e' h => ?_⟩
  cases h
  exact ⟨hargs, Or.inl hformat⟩

theorem Moves.ite {d : Dopr} {c : Prop} [Decidable c] {x y : Except Stop Dopr} (hx : Moves d x)
    (hy : Moves d y) : Moves d (if c then x else y) := by
  split
  · exact hx
  · exact hy

variable (fmt va maxlen) in
theorem conv_moves (d : Dopr) : Moves d (d.conv fmt va maxlen) := by
  have hone : ∀ e : Dopr, e.args = d.args + 1 → e.format = d.format → Moves d (.ok e) := by
    intro e hargs hformat
    exact Moves.ok (by omega) hformat
  have hfloat : d.skipFloat.args ≤ d.args + 3 := by
    show d.args + (if d.cflags = .ldouble then 3 else 2) ≤ d.args + 3
    split <;> omega
  unfold Dopr.conv
  refine .ite (hone _ rfl rfl) (.ite (hone _ rfl rfl) (.ite (hone _ rfl rfl) (.ite (hone _ rfl rfl)
    (.ite (hone _ rfl rfl) (.ite ?_ (.ite (.ok hfloat rfl) (.ite (hone _ rfl rfl)
    (.ite (hone _ rfl rfl) (.ite (hone _ rfl rfl) (.ite (hone _ rfl rfl)
    (.ite (.ok (Nat.le_add_right _ _) rfl) ?_)))))))))))
  · exact ⟨by simp, fun e h => by cases h⟩
  · split
    · rename_i hw
      refine ⟨by simp, fun e h => ?_⟩
      cases h
      exact ⟨Nat.le_add_right _ _, Or.inr ⟨hw, rfl⟩⟩
    · exact .ok (Nat.le_add_right _ _) rfl

/-- A turn of the loop: it stays inside, and something less is left to do. -/
def Progress (fmt : Nat → Byte) (n : Nat) (d : Dopr) (r : Except Stop Dopr) : Prop :=
  r ≠ .error .fuel ∧ ∀ d', r = .ok d' → Inside fmt n d' ∧ (d'.stage = .done ∨ d'.left n < d.left n)

theorem Progress.read {d e : Dopr} (h : Inside fmt n d) (hle : d.format ≤ n)
    (hformat : e.format = d.format) (hargs : e.args ≤ d.args + 3) :
    Progress fmt n d (.ok (e.next fmt)) := by
  refine ⟨by simp, fun d' hd' => ?_⟩
  cases hd'
  exact ⟨h.next hle hformat hargs, Or.inr (left_next hle hformat)⟩

theorem Progress.stage {d : Dopr} (h : Inside fmt n d) {z : Stage} (hz : z.rank < d.stage.rank) :
    Progress fmt n d (.ok { d with stage := z }) := by
  refine ⟨by simp, fun d' hd' => ?_⟩
  cases hd'
  exact ⟨h.stay z, Or.inr (Nat.add_lt_add_left hz _)⟩

theorem Progress.ite {d : Dopr} {c : Prop} [Decidable c] {x y : Except Stop Dopr}
    (hx : Progress fmt n d x) (hy : Progress fmt n d y) : Progress fmt n d (if c then x else y) := by
  split
  · exact hx
  · exact hy

/-- A conversion that returns leaves the loop with the next byte. -/
theorem conv_progress {d : Dopr} (h : Inside fmt n d) (hf : Closed fmt n) (hle : d.format ≤ n) :
    Progress fmt n d (do
      let d ← d.conv fmt va maxlen
      .ok { d.next fmt with
        stage := .default, flags := .none, cflags := .plain, min := 0, max := -1 }) := by
  have hmoves := conv_moves fmt va maxlen d
  cases hconv : d.conv fmt va maxlen with
  | error e =>
    refine ⟨fun he => hmoves.1 ?_, fun d' hd' => by cases hd'⟩
    cases he
    exact hconv
  | ok e =>
    obtain ⟨hargs, hor⟩ := hmoves.2 e hconv
    have hpos := h.pos
    have hin := h.args
    have hnext : e.format ≤ n := by
      rcases hor with hsame | ⟨hw, hplus⟩
      · omega
      · -- a `w` is not the last byte
        have hne : d.format - 1 + 1 ≠ n := fun he => hf.last _ he (by rw [← h.ch, hw])
        omega
    refine ⟨by simp [bind, Except.bind], fun d' hd' => ?_⟩
    cases hd'
    refine ⟨⟨Nat.succ_pos _, ?_, rfl, ?_⟩, Or.inr ?_⟩
    · show e.format + 1 ≤ n + 1
      omega
    · show e.args ≤ 3 * (e.format + 1 - 1)
      omega
    · show 8 * (n + 1 - (e.format + 1)) + 0 < 8 * (n + 1 - d.format) + d.stage.rank
      omega

theorem work_progress {d : Dopr} (h : Inside fmt n d) (hf : Closed fmt n) (hch : d.ch ≠ 0)
    (hstage : d.stage ≠ .done) : Progress fmt n d (d.work fmt va maxlen) := by
  have hle := h.lt hf hch
  have hread : ∀ e : Dopr, e.format = d.format → e.args ≤ d.args + 3 →
      Progress fmt n d (.ok (e.next fmt)) := fun e => Progress.read h hle
  unfold Dopr.work
  cases hs : d.stage with
  | default =>
    refine hread _ ?_ ?_
    · split <;> rfl
    · split <;> exact Nat.le_add_right _ _
  | flags =>
    simp only
    split
    · exact hread _ rfl (Nat.le_add_right _ _)
    · exact Progress.stage h (by rw [hs]; decide)
  | min =>
    exact .ite (hread _ rfl (Nat.le_add_right _ _)) (.ite
      (hread _ rfl (Nat.add_le_add_left (by decide) _)) (Progress.stage h (by rw [hs]; decide)))
  | dot =>
    exact .ite (hread _ rfl (Nat.le_add_right _ _)) (Progress.stage h (by rw [hs]; decide))
  | max =>
    exact .ite (hread _ rfl (Nat.le_add_right _ _)) (.ite
      (hread _ rfl (Nat.add_le_add_left (by decide) _)) (Progress.stage h (by rw [hs]; decide)))
  | mod =>
    simp only
    split
    · exact hread _ rfl (Nat.le_add_right _ _)
    · exact Progress.stage h (by rw [hs]; decide)
  | conv => exact conv_progress h hf hle
  | done => exact absurd hs hstage

variable (va maxlen) in
theorem turn_progress {d : Dopr} (h : Inside fmt n d) (hf : Closed fmt n)
    (hstage : d.stage ≠ .done) : Progress fmt n d (d.turn fmt va maxlen) := by
  unfold Dopr.turn
  split
  · refine ⟨by simp, fun d' hd' => ?_⟩
    cases hd'
    exact ⟨h.stay .done, Or.inl rfl⟩
  · rename_i hgo
    exact work_progress h hf (fun hz => hgo (Or.inl hz)) hstage

variable (va maxlen) in
/-- The loop ends inside the format. -/
theorem loop_inside {fuel : Nat} {d : Dopr} (h : Inside fmt n d) (hf : Closed fmt n)
    (hfuel : d.left n + 1 < fuel) :
    Dopr.loop fmt va maxlen fuel d ≠ .error .fuel ∧
      ∀ d', Dopr.loop fmt va maxlen fuel d = .ok d' → Inside fmt n d' := by
  induction fuel generalizing d with
  | zero => exact absurd hfuel (Nat.not_lt_zero _)
  | succ fuel ih =>
    rw [Dopr.loop]
    by_cases hstage : d.stage = .done
    · rw [if_pos hstage]
      refine ⟨by simp, fun d' hd' => ?_⟩
      cases hd'
      exact h
    · obtain ⟨hne, hok⟩ := turn_progress va maxlen h hf hstage
      rw [if_neg hstage]
      cases hturn : d.turn fmt va maxlen with
      | error e =>
        refine ⟨fun he => hne ?_, fun d' hd' => by cases hd'⟩
        cases he
        exact hturn
      | ok d' =>
        obtain ⟨hin, hor⟩ := hok d' hturn
        show Dopr.loop fmt va maxlen fuel d' ≠ _ ∧ ∀ d'', Dopr.loop fmt va maxlen fuel d' = _ → _
        rcases hor with hdone | hless
        · -- one more turn, to see that it is done
          obtain ⟨k, rfl⟩ : ∃ k, fuel = k + 1 := ⟨fuel - 1, by omega⟩
          rw [Dopr.loop, if_pos hdone]
          refine ⟨by simp, fun d'' hd'' => ?_⟩
          cases hd''
          exact hin
        · exact ih hin (by omega)

/-- The loop ends by setting the stage that it tests. -/
theorem loop_done {fuel : Nat} {d d' : Dopr} (h : Dopr.loop fmt va maxlen fuel d = .ok d') :
    d'.stage = .done := by
  induction fuel generalizing d with
  | zero => cases h
  | succ fuel ih =>
    rw [Dopr.loop] at h
    split at h
    · rename_i hdone
      cases h
      exact hdone
    · cases hturn : d.turn fmt va maxlen with
      | error e =>
        rw [hturn] at h
        cases h
      | ok d₁ =>
        rw [hturn] at h
        exact ih h

/-- Whatever the format, `dopr` reaches a `%f` or returns; returning, it has looked at no byte
behind the first 0, and has taken at most three arguments for each byte. -/
theorem dopr_ends {mem : Bytes} {out : List Byte} (hf : Closed fmt n) {fuel : Nat}
    (hfuel : 8 * n + 1 < fuel) :
    dopr fmt va maxlen fuel mem out = .error .floating ∨
      ∃ d, dopr fmt va maxlen fuel mem out = .ok d ∧ d.stage = .done ∧
        d.format ≤ n + 1 ∧ d.args ≤ 3 * n := by
  have hstart : Inside fmt n (Dopr.start fmt mem out) := by
    refine ⟨Nat.one_pos, ?_, rfl, Nat.zero_le _⟩
    show 1 ≤ n + 1
    omega
  have hleft : (Dopr.start fmt mem out).left n = 8 * (n + 1 - 1) + 0 := rfl
  have hless : (Dopr.start fmt mem out).left n + 1 < fuel := by omega
  obtain ⟨hne, hok⟩ := loop_inside va maxlen hstart hf hless
  cases hrun : dopr fmt va maxlen fuel mem out with
  | error e =>
    cases e with
    | floating => exact Or.inl rfl
    | fuel => exact absurd hrun hne
  | ok d =>
    have hin := hok d hrun
    have hle := hin.le
    have hargs := hin.args
    exact Or.inr ⟨d, rfl, loop_done hrun, hle, by omega⟩

/-- `"%*d%5"`. -/
def unfinished (i : Nat) : Byte := [chr '%', chr '*', chr 'd', chr '%', chr '5', 0#8].getD i 0

theorem unfinished_closed : Closed unfinished 5 := by
  refine ⟨rfl, fun i hi => ?_⟩
  obtain rfl : i = 4 := by omega
  decide

/-- With 4 and 42 as arguments. The second directive is not finished, and nothing is put out for
it. -/
theorem dopr_ends_unfinished :
    ∃ d, dopr unfinished (fun i => [4#32, 42#32].getD i 0) 1000 42 (fun _ => 0) [] = .ok d ∧
      d.stage = .done ∧ d.format ≤ 5 + 1 ∧ d.args ≤ 3 * 5 ∧
      (d.format, d.args, d.sink.out) = (6, 2, [chr ' ', chr ' ', chr '4', chr '2']) := by
  have hrun : (dopr unfinished (fun i => [4#32, 42#32].getD i 0) 1000 42
      (fun _ => 0) []).toOption.map (fun d => (d.format, d.args, d.sink.out)) =
      some (6, 2, [chr ' ', chr ' ', chr '4', chr '2']) := by decide +kernel
  have hfuel : 8 * 5 + 1 < 42 := by decide
  rcases dopr_ends unfinished_closed hfuel with hf | ⟨d, hd, hdone, hformat, hargs⟩
  · rw [hf] at hrun
    cases hrun
  · rw [hd] at hrun
    exact ⟨d, hd, hdone, hformat, hargs, Option.some.inj hrun⟩

end OsKernel.Format
