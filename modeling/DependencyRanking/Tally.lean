/-!
# Adding up a count over a list
-/
namespace DependencyRanking

variable {α : Type}

def tally (f : α → Nat) : List α → Nat
  | [] => 0
  | a :: rest => f a + tally f rest

@[simp] theorem tally_nil (f : α → Nat) : tally f [] = 0 := rfl

@[simp] theorem tally_cons (f : α → Nat) (a : α) (as : List α) :
    tally f (a :: as) = f a + tally f as := rfl

theorem tally_pos {f : α → Nat} {as : List α} : 0 < tally f as ↔ ∃ a ∈ as, 0 < f a := by
  induction as with
  | nil => simp
  | cons a rest ih =>
    rw [tally_cons, Nat.add_pos_iff_pos_or_pos, ih]
    simp

theorem tally_perm (f : α → Nat) {as bs : List α} (h : as.Perm bs) : tally f as = tally f bs := by
  induction h with
  | nil => rfl
  | cons a _ ih => rw [tally_cons, tally_cons, ih]
  | swap a b rest =>
    simp only [tally_cons]
    omega
  | trans _ _ ih ih' => exact ih.trans ih'

end DependencyRanking
