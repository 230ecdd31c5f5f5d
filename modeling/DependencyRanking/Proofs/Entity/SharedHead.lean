import DependencyRanking.Entity.Naming
import Mathlib.Data.List.Basic

/-!
# The head that most names share

A name falls into parts, each of which but the first starts with a capital letter. A name has at
most one head, so the names behind two heads are different ones, and two heads cannot both have
three names in five. The search for a head goes through the names in their order, but there is only
one to be found.
-/
namespace DependencyRanking

section Parts

/-- The parts of a name: none is empty, and the capital letters start the parts after the first. -/
inductive CamelParts : List Char → List (List Char) → Prop
  | nil : CamelParts [] []
  | part {c : Char} {w cs : List Char} {parts : List (List Char)} :
      (∀ d ∈ w, d.isUpper = false) → (∀ d ∈ cs.head?, d.isUpper = true) → CamelParts cs parts →
      CamelParts (c :: (w ++ cs)) ((c :: w) :: parts)

variable {cs w part : List Char} {parts : List (List Char)} {c : Char} {name head : String}

theorem startsPart_eq_isUpper (c : Char) : startsPart c = c.isUpper :=
  (Bool.decide_and ('A' ≤ c) (c ≤ 'Z')).symm

theorem takeWhile_lower_append (hw : ∀ d ∈ w, d.isUpper = false)
    (hcs : ∀ d ∈ cs.head?, d.isUpper = true) :
    (w ++ cs).takeWhile (fun d => !startsPart d) = w ∧
      (w ++ cs).dropWhile (fun d => !startsPart d) = cs := by
  have hlower : ∀ d ∈ w, (!startsPart d) = true := fun d hd => by
    rw [startsPart_eq_isUpper, hw d hd]
    rfl
  rw [List.takeWhile_append_of_pos hlower, List.dropWhile_append_of_pos hlower]
  cases cs with
  | nil => simp
  | cons d rest =>
    have hd : (!startsPart d) = false := by rw [startsPart_eq_isUpper, hcs d rfl]; rfl
    simp [hd]

theorem CamelParts.eq_nil_iff (h : CamelParts cs parts) : cs = [] ↔ parts = [] := by
  cases h <;> simp

theorem CamelParts.head_eq (h : CamelParts cs (part :: parts)) :
    headPart cs = part ∧ CamelParts (afterHead cs) parts := by
  cases h with
  | @part c w cs parts hw hcs h =>
    obtain ⟨htake, hdrop⟩ := takeWhile_lower_append hw hcs
    have hafter : afterHead (c :: (w ++ cs)) = cs := hdrop
    exact ⟨congrArg (c :: ·) htake, hafter.symm ▸ h⟩

theorem exists_camelParts (cs : List Char) : ∃ parts, CamelParts cs parts := by
  induction cs with
  | nil => exact ⟨[], .nil⟩
  | cons c cs ih =>
    obtain ⟨parts, h⟩ := ih
    cases h with
    | nil => exact ⟨_, .part (w := []) (by simp) (by simp) .nil⟩
    | @part d w cs parts hw hcs h =>
      by_cases hd : d.isUpper = true
      · exact ⟨_, .part (w := []) (by simp) (by simpa using hd) (.part hw hcs h)⟩
      · exact ⟨_, .part (w := d :: w) (by simpa [hd] using hw) hcs h⟩

def HasHead (name head : String) : Prop :=
  ∃ parts, CamelParts name.toList (head.toList :: parts) ∧ parts ≠ [] ∧ 3 ≤ head.length

theorem nameHead?_eq_some_iff : nameHead? name = some head ↔ HasHead name head := by
  unfold nameHead?
  dsimp only
  constructor
  · intro h
    split at h
    · rename_i hlong
      simp only [Bool.and_eq_true, Bool.not_eq_true', List.isEmpty_eq_false_iff,
        decide_eq_true_eq] at hlong
      obtain rfl := Option.some.inj h
      obtain ⟨parts, hparts⟩ := exists_camelParts name.toList
      cases parts with
      | nil =>
        refine absurd ?_ hlong.1
        rw [hparts.eq_nil_iff.2 rfl]
        rfl
      | cons part parts =>
        obtain ⟨rfl, hafter⟩ := hparts.head_eq
        refine ⟨parts, ?_, fun hnil => hlong.1 (hafter.eq_nil_iff.2 hnil), ?_⟩
        · rwa [String.toList_ofList]
        · simpa using hlong.2
    · cases h
  · rintro ⟨parts, hparts, hmore, hlong⟩
    obtain ⟨hhead, hafter⟩ := hparts.head_eq
    have hrest : afterHead name.toList ≠ [] := fun hnil => hmore (hafter.eq_nil_iff.1 hnil)
    rw [← String.length_toList] at hlong
    rw [hhead, if_pos (by simp [hrest, hlong]), String.ofList_toList]

theorem HasHead.unique {head' : String} (h : HasHead name head) (h' : HasHead name head') :
    head = head' :=
  Option.some.inj ((nameHead?_eq_some_iff.2 h).symm.trans (nameHead?_eq_some_iff.2 h'))

instance (name head : String) : Decidable (HasHead name head) :=
  decidable_of_iff _ nameHead?_eq_some_iff

end Parts

section Shares

variable {names names' : List String} {head head' : String}

def IsShared (names : List String) (head : String) : Prop :=
  60 * names.length ≤ 100 * names.countP (HasHead · head)

instance (names : List String) (head : String) : Decidable (IsShared names head) :=
  inferInstanceAs (Decidable (_ ≤ _))

theorem count_heads (names : List String) (head : String) :
    (names.filterMap nameHead?).count head = names.countP (HasHead · head) := by
  rw [List.count, List.countP_filterMap]
  refine List.countP_congr fun name _ => ?_
  rw [decide_eq_true_eq, ← nameHead?_eq_some_iff]
  cases nameHead? name <;> simp

theorem countP_add_countP_le (names : List String) (hne : head ≠ head') :
    names.countP (HasHead · head) + names.countP (HasHead · head') ≤ names.length := by
  -- each name counts for one head at most
  induction names with
  | nil => simp
  | cons name rest ih =>
    have hone : ¬ (HasHead name head ∧ HasHead name head') := fun h => hne (h.1.unique h.2)
    simp only [List.countP_cons, List.length_cons, decide_eq_true_eq]
    split <;> split <;> first | omega | exact absurd ⟨‹_›, ‹_›⟩ hone

theorem IsShared.unique (hnames : names ≠ []) (h : IsShared names head)
    (h' : IsShared names head') : head = head' := by
  by_contra hne
  have hsum := countP_add_countP_le names hne
  have hpos := List.length_pos_iff.2 hnames
  unfold IsShared at h h'
  omega

theorem IsShared.mem_heads (hnames : names ≠ []) (h : IsShared names head) :
    head ∈ names.filterMap nameHead? := by
  have hpos := List.length_pos_iff.2 hnames
  rw [← List.count_pos_iff, count_heads]
  unfold IsShared at h
  omega

theorem isShared_of_perm (h : names'.Perm names) : IsShared names' head ↔ IsShared names head := by
  unfold IsShared
  rw [h.length_eq, h.countP_eq]

theorem shared_of_sharedHead (h : sharedHead names = some head) : IsShared names head := by
  unfold sharedHead at h
  split at h
  · cases h
  · have hcount := List.find?_some h
    rw [decide_eq_true_eq, count_heads] at hcount
    unfold IsShared
    omega

theorem sharedHead_eq_some_iff (hlength : 2 ≤ names.length) :
    sharedHead names = some head ↔ IsShared names head := by
  refine ⟨shared_of_sharedHead, fun h => ?_⟩
  have hnames : names ≠ [] := List.ne_nil_of_length_pos (by omega)
  have hfound : (sharedHead names).isSome := by
    unfold sharedHead
    rw [if_neg (by omega)]
    dsimp only
    rw [List.find?_isSome]
    refine ⟨head, mem_distinct.2 (h.mem_heads hnames), ?_⟩
    rw [decide_eq_true_eq, count_heads]
    unfold IsShared at h
    omega
  obtain ⟨head', hhead'⟩ := Option.isSome_iff_exists.1 hfound
  rw [hhead', (shared_of_sharedHead hhead').unique hnames h]

/-- Of at least two names, no two heads are shared by enough of them, and a search finds the one
that is, if there is one, whatever the order of the names. -/
theorem sharedHead_unique (hlength : 2 ≤ names.length) :
    (∀ head head', IsShared names head → IsShared names head' → head = head') ∧
    (∀ head, sharedHead names = some head ↔ IsShared names head) ∧
    (sharedHead names = none ↔ ∀ head, ¬ IsShared names head) ∧
    ∀ names', names'.Perm names → sharedHead names' = sharedHead names := by
  have hnames : names ≠ [] := List.ne_nil_of_length_pos (by omega)
  have hfound : ∀ head, sharedHead names = some head ↔ IsShared names head := fun head =>
    sharedHead_eq_some_iff hlength
  refine ⟨fun head head' h h' => h.unique hnames h', hfound, ?_, fun names' hperm => ?_⟩
  · rw [Option.eq_none_iff_forall_ne_some]
    exact forall_congr' fun head => not_congr (hfound head)
  · refine Option.ext fun head => ?_
    rw [sharedHead_eq_some_iff (hperm.length_eq ▸ hlength), hfound, isShared_of_perm hperm]

theorem sharedHead_of_five :
    2 ≤ ["slot", "BookingSlot", "User", "BookingReminder", "BookingX"].length ∧
    sharedHead ["slot", "BookingSlot", "User", "BookingReminder", "BookingX"] = some "Booking" :=
  ⟨by decide, ((sharedHead_unique (by decide)).2.1 "Booking").2 (by decide +kernel)⟩

end Shares

end DependencyRanking
