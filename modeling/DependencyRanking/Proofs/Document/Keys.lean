import DependencyRanking.Document.Reader
import DependencyRanking.Proofs.Outcome

/-!
# The keys of a settings document

A table of a document never has a key twice, however deep it stands: statements and inline tables
only add keys that are not there, and what is changed stays in its place.
-/
namespace DependencyRanking.Document

variable {v w : Value} {es es' : Entries} {key : String} {path : Path}

/-- In every table of the value the keys are distinct. -/
inductive Keyed : Value → Prop
  | leaf {v : Value} (h : isClosed v = false) : Keyed v
  | list {items : List Value} (h : ∀ v ∈ items, Keyed v) : Keyed (.list items)
  | table {es : Entries} (distinct : (es.map Prod.fst).Nodup) (h : ∀ e ∈ es, Keyed e.2) :
      Keyed (.table es)

namespace Keyed

theorem nodup (h : Keyed (.table es)) : (es.map Prod.fst).Nodup := by
  cases h with
  | leaf h => cases h
  | table distinct _ => exact distinct

theorem of_mem (h : Keyed (.table es)) {e : String × Value} (he : e ∈ es) : Keyed e.2 := by
  cases h with
  | leaf h => cases h
  | table _ h => exact h e he

theorem of_mem_list {items : List Value} (h : Keyed (.list items)) (hv : v ∈ items) : Keyed v := by
  cases h with
  | leaf h => cases h
  | list h => exact h v hv

theorem nil : Keyed (.table []) := .table List.nodup_nil fun _ he => absurd he List.not_mem_nil

theorem put (h : Keyed (.table es)) (hv : Keyed v) (key : String) :
    Keyed (.table (putEntry key v es)) := by
  refine .table (Table.insert ⟨es, h.nodup⟩ key v).nodup ?_
  replace h : ∀ e ∈ es, Keyed e.2 := fun e he => h.of_mem he
  induction es with
  | nil => simpa [putEntry] using hv
  | cons e rest ih =>
    obtain ⟨he, hrest⟩ := List.forall_mem_cons.1 h
    unfold putEntry
    split
    · exact List.forall_mem_cons.2 ⟨hv, hrest⟩
    · exact List.forall_mem_cons.2 ⟨he, ih hrest⟩

theorem add (h : Keyed (.table es)) (hv : Keyed v) (hnew : entryAt? key es = none) :
    Keyed (.table (es ++ [(key, v)])) := by
  have hkey : key ∉ es.map Prod.fst := Table.entryAt?_eq_none_iff.1 hnew
  refine .table ?_ (List.forall_mem_append.2 ⟨fun e he => h.of_mem he, by simpa using hv⟩)
  rw [List.map_append, List.map_singleton, List.nodup_append]
  refine ⟨h.nodup, by simp, fun k hk k' hk' => ?_⟩
  obtain rfl := List.mem_singleton.1 hk'
  rintro rfl
  exact hkey hk

theorem of_entryAt? (h : Keyed (.table es)) (hv : entryAt? key es = some v) : Keyed v :=
  h.of_mem ((Table.entryAt?_eq_some_iff h.nodup).1 hv)

end Keyed

section Changes

def KeepsKeys (change : Entries → Option Entries) : Prop :=
  ∀ es es', Keyed (.table es) → change es = some es' → Keyed (.table es')

theorem keepsKeys_addNew (key : String) (hv : Keyed v) : KeepsKeys (addNew key v) := by
  intro es es' h he
  unfold addNew at he
  split at he
  · cases he
  · rename_i hnew
    cases he
    exact h.add hv (Option.not_isSome_iff_eq_none.1 hnew)

theorem keepsKeys_appendTable (key : String) : KeepsKeys (Draft.appendTable key) := by
  have hempty : Keyed (.list [.table []]) := .list (by simpa using Keyed.nil)
  intro es es' h he
  unfold Draft.appendTable at he
  split at he
  · rename_i hnew
    cases he
    exact h.add hempty hnew
  · rename_i items hitems
    cases he
    have hold := h.of_entryAt? hitems
    refine h.put (.list (List.forall_mem_append.2 ⟨fun v hv => hold.of_mem_list hv, ?_⟩)) key
    simpa using Keyed.nil
  · cases he

theorem KeepsKeys.updateAt {change : Entries → Option Entries} (hchange : KeepsKeys change)
    (throughArrays : Bool) (path : Path) : KeepsKeys (updateAt throughArrays change path) := by
  induction path with
  | nil => exact hchange
  | cons key path ih =>
    intro es es' h he
    unfold Document.updateAt at he
    split at he
    · obtain ⟨t, ht, rfl⟩ := Option.map_eq_some_iff.1 he
      exact h.put (ih _ _ .nil ht) key
    · rename_i sub hsub
      obtain ⟨t, ht, rfl⟩ := Option.map_eq_some_iff.1 he
      exact h.put (ih _ _ (h.of_entryAt? hsub) ht) key
    · rename_i items hitems
      have hold := h.of_entryAt? hitems
      split at he
      · rename_i sub hlast
        obtain ⟨t, ht, rfl⟩ := Option.map_eq_some_iff.1 he
        have hsub : Keyed (.table sub) := hold.of_mem_list (List.mem_of_getLast? hlast)
        refine h.put (.list (List.forall_mem_append.2 ⟨fun v hv => ?_, ?_⟩)) key
        · exact hold.of_mem_list (List.dropLast_subset items hv)
        · simpa using ih _ _ hsub ht
      · cases he
    · cases he

end Changes

section Drafts

theorem InlineDraft.keyed_add {d d' : InlineDraft} (hd : Keyed (.table d.entries)) (hv : Keyed v)
    (h : d.add path v = some d') : Keyed (.table d'.entries) := by
  unfold add at h
  split at h
  · cases h
  · obtain ⟨es, hes, rfl⟩ := Option.map_eq_some_iff.1 h
    exact (keepsKeys_addNew _ hv).updateAt _ _ _ _ hd hes

variable {d d' : Draft}

theorem Draft.keyed_openTable (hd : Keyed (.table d.entries)) (h : d.openTable path = some d') :
    Keyed (.table d'.entries) := by
  unfold openTable at h
  dsimp only at h
  split at h
  · cases h
  · obtain ⟨es, hes, rfl⟩ := Option.map_eq_some_iff.1 h
    have hsome : KeepsKeys some := fun es es' h he => Option.some.inj he ▸ h
    exact hsome.updateAt _ _ _ _ hd hes

theorem Draft.keyed_openNext (hd : Keyed (.table d.entries)) (h : d.openNext path = some d') :
    Keyed (.table d'.entries) := by
  unfold openNext at h
  dsimp only at h
  split at h
  · cases h
  · obtain ⟨es, hes, rfl⟩ := Option.map_eq_some_iff.1 h
    exact (keepsKeys_appendTable _).updateAt _ _ _ _ hd hes

theorem Draft.keyed_addEntry (hd : Keyed (.table d.entries)) (hv : Keyed v)
    (h : d.addEntry path v = some d') : Keyed (.table d'.entries) := by
  unfold addEntry at h
  dsimp only at h
  split at h
  · cases h
  · obtain ⟨es, hes, rfl⟩ := Option.map_eq_some_iff.1 h
    exact (keepsKeys_addNew (splitLast path).2 hv).updateAt _ _ _ _ hd hes

def KeyedStatement (statement : Statement) : Prop :=
  ∀ key v, statement = .entry key v → Keyed v

theorem Draft.keyed_apply {statement : Statement} (hs : KeyedStatement statement)
    (hd : Keyed (.table d.entries)) (h : d.apply statement = some d') :
    Keyed (.table d'.entries) := by
  cases statement with
  | table key => exact Draft.keyed_openTable hd h
  | tableArray key => exact Draft.keyed_openNext hd h
  | entry key v => exact Draft.keyed_addEntry hd (hs key v rfl) h

end Drafts

section Readers

variable {cs rest : List Char}

@[simp] theorem orMalformed_eq_ok {α : Type} {o : Option α} {a : α} :
    orMalformed o = .ok a ↔ o = some a := by
  cases o <;> simp [orMalformed]

theorem isClosed_of_readPrefixed (h : readPrefixed cs = some (v, rest)) : isClosed v = false := by
  have hbased (base : Nat) (isDigit : Char → Bool) (cs : List Char)
      (h : readBased base isDigit cs = some (v, rest)) : isClosed v = false := by
    unfold readBased at h
    split at h <;> cases h
    rfl
  unfold readPrefixed at h
  split at h
  · exact hbased _ _ _ h
  · exact hbased _ _ _ h
  · exact hbased _ _ _ h
  · cases h

theorem isClosed_of_readDecimalNumber (h : readDecimalNumber cs = some (.ok v, rest)) :
    isClosed v = false := by
  have hinteger (negative : Bool) (digits : List Char) (h : integerOf negative digits = .ok v) :
      isClosed v = false := by
    unfold integerOf at h
    split at h <;> cases h
    rfl
  unfold readDecimalNumber at h
  dsimp only at h
  split at h
  · cases h
  · split at h
    · exact hinteger _ _ (Prod.mk.inj (Option.some.inj h)).1
    · cases h
      rfl

theorem isClosed_of_readSpecial (h : readSpecial cs = some (v, rest)) : isClosed v = false := by
  unfold readSpecial at h
  dsimp only at h
  split at h <;> cases h <;> rfl

theorem isClosed_of_readNumber (h : readNumber cs = .ok (v, rest)) : isClosed v = false := by
  unfold readNumber at h
  split at h
  · rename_i hread
    cases h
    exact isClosed_of_readPrefixed hread
  · split at h
    · rename_i hread
      obtain ⟨v', rfl, he⟩ := Outcome.map_eq_ok.1 h
      cases he
      exact isClosed_of_readDecimalNumber hread
    · exact isClosed_of_readSpecial (orMalformed_eq_ok.1 h)

theorem isClosed_of_readFigure (h : readFigure cs = .ok (v, rest)) : isClosed v = false := by
  unfold readFigure at h
  split at h
  · cases h
  · cases h
    rfl
  · split at h
    · cases h
      rfl
    · exact isClosed_of_readNumber h

theorem keyed_of_readQuoted (h : readQuoted cs = .ok (v, rest)) : Keyed v := by
  obtain ⟨r, -, hr⟩ := Option.map_eq_some_iff.1 (orMalformed_eq_ok.1 h)
  cases hr
  exact .leaf rfl

structure ReadsKeyed (allowance : Nat) : Prop where
  value {cs rest : List Char} {v : Value} : readValue allowance cs = .ok (v, rest) → Keyed v
  items {cs rest : List Char} {items : List Value} :
    readItems allowance cs = .ok (items, rest) → ∀ v ∈ items, Keyed v
  entries {cs rest : List Char} {d : InlineDraft} {es : Entries} (hd : Keyed (.table d.entries)) :
    readEntries allowance d cs = .ok (es, rest) → Keyed (.table es)
  entry {cs rest : List Char} {e : Path × Value} :
    readEntry allowance cs = .ok (e, rest) → Keyed e.2

section Step

variable {allowance : Nat} (h : ReadsKeyed allowance)
include h

theorem keyed_of_readValue (hread : readValue (allowance + 1) cs = .ok (v, rest)) : Keyed v := by
  unfold readValue at hread
  split at hread
  · exact keyed_of_readQuoted hread
  · exact keyed_of_readQuoted hread
  · cases hread
    exact .leaf rfl
  · cases hread
    exact .leaf rfl
  · obtain ⟨filled, -, hread⟩ := Outcome.bind_eq_ok.1 hread
    obtain ⟨⟨items, after⟩, hitems, hread⟩ := Outcome.bind_eq_ok.1 hread
    cases hread
    exact .list (h.items hitems)
  · split at hread
    · cases hread
      exact .nil
    · obtain ⟨⟨entries, after⟩, hentries, hread⟩ := Outcome.bind_eq_ok.1 hread
      cases hread
      exact h.entries .nil hentries
  · exact .leaf (isClosed_of_readFigure hread)

theorem keyed_of_readItems {items : List Value}
    (hread : readItems (allowance + 1) cs = .ok (items, rest)) : ∀ v ∈ items, Keyed v := by
  unfold readItems at hread
  split at hread
  · cases hread
    simp
  · obtain ⟨⟨item, after⟩, hitem, hread⟩ := Outcome.bind_eq_ok.1 hread
    obtain ⟨filled, -, hread⟩ := Outcome.bind_eq_ok.1 hread
    split at hread
    · cases hread
      simpa using h.value hitem
    · obtain ⟨filled', -, hread⟩ := Outcome.bind_eq_ok.1 hread
      obtain ⟨⟨others, after'⟩, hothers, hread⟩ := Outcome.bind_eq_ok.1 hread
      cases hread
      exact List.forall_mem_cons.2 ⟨h.value hitem, h.items hothers⟩
    · cases hread

theorem keyed_of_readEntries {d : InlineDraft} (hd : Keyed (.table d.entries))
    (hread : readEntries (allowance + 1) d cs = .ok (es, rest)) : Keyed (.table es) := by
  unfold readEntries at hread
  obtain ⟨⟨⟨key, value⟩, after⟩, hentry, hread⟩ := Outcome.bind_eq_ok.1 hread
  obtain ⟨next, hnext, hread⟩ := Outcome.bind_eq_ok.1 hread
  have hnext := InlineDraft.keyed_add hd (h.entry hentry) (orMalformed_eq_ok.1 hnext)
  split at hread
  · cases hread
    exact hnext
  · exact h.entries hnext hread
  · cases hread

theorem keyed_of_readEntry {e : Path × Value}
    (hread : readEntry (allowance + 1) cs = .ok (e, rest)) : Keyed e.2 := by
  unfold readEntry at hread
  obtain ⟨⟨key, after⟩, -, hread⟩ := Outcome.bind_eq_ok.1 hread
  dsimp only at hread
  split at hread
  · obtain ⟨⟨value, after'⟩, hvalue, hread⟩ := Outcome.bind_eq_ok.1 hread
    cases hread
    exact h.value hvalue
  · cases hread

end Step

-- The readers call each other with a smaller allowance, so one induction carries all four.
theorem readsKeyed (allowance : Nat) : ReadsKeyed allowance := by
  induction allowance with
  | zero =>
    exact ⟨fun h => by simp [readValue] at h, fun h => by simp [readItems] at h,
      fun _ h => by simp [readEntries] at h, fun h => by simp [readEntry] at h⟩
  | succ allowance ih =>
    exact ⟨keyed_of_readValue ih, keyed_of_readItems ih, keyed_of_readEntries ih,
      keyed_of_readEntry ih⟩

theorem keyed_of_readHead {allowance : Nat} {statement : Statement}
    (h : readHead allowance cs = some (statement, rest)) : KeyedStatement statement := by
  rintro key v rfl
  unfold readHead at h
  split at h
  · obtain ⟨⟨key', after⟩, -, h⟩ := Option.bind_eq_some_iff.1 h
    dsimp only at h
    split at h <;> cases h
  · obtain ⟨⟨key', after⟩, -, h⟩ := Option.bind_eq_some_iff.1 h
    dsimp only at h
    split at h <;> cases h
  · cases h

theorem keyed_of_readStatement {allowance : Nat} {statement : Statement}
    (h : readStatement allowance cs = .ok (statement, rest)) : KeyedStatement statement := by
  unfold readStatement at h
  split at h
  · exact keyed_of_readHead (orMalformed_eq_ok.1 h)
  · obtain ⟨⟨⟨key, value⟩, after⟩, hentry, h⟩ := Outcome.bind_eq_ok.1 h
    cases h
    rintro key' v he
    cases he
    exact (readsKeyed allowance).entry hentry

theorem keyed_of_readStatements {allowance : Nat} {d d' : Draft} (hd : Keyed (.table d.entries))
    (h : readStatements allowance d cs = .ok d') : Keyed (.table d'.entries) := by
  induction allowance generalizing cs d with
  | zero => simp [readStatements] at h
  | succ allowance ih =>
    unfold readStatements at h
    split at h
    · cases h
      exact hd
    · exact ih hd h
    · obtain ⟨after, -, h⟩ := Outcome.bind_eq_ok.1 h
      exact ih hd h
    · obtain ⟨⟨statement, after⟩, hstatement, h⟩ := Outcome.bind_eq_ok.1 h
      obtain ⟨next, hnext, h⟩ := Outcome.bind_eq_ok.1 h
      have hnext := Draft.keyed_apply (keyed_of_readStatement hstatement) hd
        (orMalformed_eq_ok.1 hnext)
      obtain ⟨left, -, h⟩ := Outcome.bind_eq_ok.1 h
      split at h
      · cases h
        exact hnext
      · exact ih hnext h
      · cases h

theorem keyed_of_read {text : String} (h : read text = .ok es) : Keyed (.table es) := by
  obtain ⟨draft, hdraft, h⟩ := Outcome.bind_eq_ok.1 h
  cases h
  exact keyed_of_readStatements .nil hdraft

end Readers

end DependencyRanking.Document
