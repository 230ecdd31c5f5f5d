import DependencyRanking.Proofs.Graph.Rejection
import DependencyRanking.Proofs.Graph.Renamed

/-!
# Graphs that are built again

The keys of a graph stand in the order in which its modules were first named, alone or at an end of
an edge, and the dependencies of a module in the order of its edges. Written out module by module
and read once more, they arrive in the same order, and no edge comes twice. So a graph is its own
reading, and everything that can be read as dependencies is read to such a graph.
-/
namespace DependencyRanking

section Distinct

variable {α : Type} [DecidableEq α] {as bs : List α}

theorem distinct_append_of_subset (h : ∀ b ∈ bs, b ∈ as) : distinct (as ++ bs) = distinct as := by
  induction bs using List.reverseRecOn with
  | nil => rw [List.append_nil]
  | append_singleton bs b ih =>
    have hb : b ∈ as ++ bs := List.mem_append_left bs (h b (by simp))
    rw [← List.append_assoc, distinct_concat, if_pos hb]
    exact ih fun c hc => h c (List.mem_append_left [b] hc)

theorem distinct_eq_self (h : as.Nodup) : distinct as = as := by
  induction as with
  | nil => rfl
  | cons a rest ih =>
    obtain ⟨ha, hrest⟩ := List.nodup_cons.1 h
    rw [distinct, ih hrest, List.filter_eq_self.2]
    intro b hb
    simpa using fun heq : b = a => ha (heq ▸ hb)

end Distinct

namespace Table

variable {κ ν : Type} [DecidableEq κ]

theorem entries_eq_map (t : Table κ ν) (d : ν) :
    t.entries = t.keys.map fun k => (k, t.getD k d) := by
  unfold keys
  rw [List.map_map]
  refine (List.map_id _).symm.trans (List.map_congr_left fun e he => ?_)
  have hget := (t.mem_entries_iff e.1 e.2).1 he
  simp [getD, hget]

theorem eq_of_keys {s t : Table κ ν} (d : ν) (hk : s.keys = t.keys)
    (hv : ∀ k, s.getD k d = t.getD k d) : s = t := by
  have hentries : s.entries = t.entries := by
    simp only [s.entries_eq_map d, t.entries_eq_map d, hk, hv]
  cases s
  cases t
  cases hentries
  rfl

end Table

namespace ModuleGraph

variable {g : ModuleGraph} {pairs : List (ModuleId × ModuleId)} {nodes : List ModuleId}
variable {t : Table ModuleId (List ModuleId)} {a b m : ModuleId}

section Keys

theorem Draft.keys_addNode {d : Draft} {named : List ModuleId}
    (h : d.adjacency.keys = distinct named) (a : ModuleId) :
    (d.addNode a).adjacency.keys = distinct (named ++ [a]) := by
  have hmem : a ∈ named ↔ d.adjacency.contains a = true := by
    rw [Table.contains_iff, h, mem_distinct]
  unfold addNode Table.insertNew
  rw [distinct_concat, ← h]
  by_cases ha : a ∈ named
  · simp [ha, hmem.1 ha]
  · have hkey : a ∉ d.adjacency.keys := by rwa [h, mem_distinct]
    simp [ha, hmem.not.1 ha, Table.keys_insert, hkey]

theorem Draft.keys_addEdge {d : Draft} {named : List ModuleId}
    (h : d.adjacency.keys = distinct named) (a b : ModuleId) :
    (d.addEdge (a, b)).adjacency.keys = distinct (named ++ [a] ++ [b]) := by
  have ha : a ∈ ((d.addNode a).addNode b).adjacency.keys := by
    rw [← Table.contains_iff, contains_addNode, contains_addNode]
    exact .inr (.inl rfl)
  rw [← keys_addNode (keys_addNode h a) b]
  unfold addEdge
  dsimp only
  split
  · rfl
  · rw [Table.keys_insert, if_pos ha]

theorem keys_draftOf (pairs : List (ModuleId × ModuleId)) (nodes : List ModuleId) :
    (draftOf pairs nodes).adjacency.keys =
      distinct (nodes ++ pairs.flatMap fun e => [e.1, e.2]) := by
  induction pairs using List.reverseRecOn with
  | nil =>
    rw [List.flatMap_nil, List.append_nil]
    induction nodes using List.reverseRecOn with
    | nil => rfl
    | append_singleton nodes a ih =>
      rw [draftOf_nil_concat]
      exact Draft.keys_addNode ih a
  | append_singleton pairs e ih =>
    rw [draftOf_concat, Draft.keys_addEdge ih, List.flatMap_append]
    simp

end Keys

section Edges

theorem targets_of_entries {entries : List (ModuleId × List ModuleId)}
    (h : (entries.map Prod.fst).Nodup) (m : ModuleId) :
    ((entries.flatMap fun e => e.2.map (e.1, ·)).filter fun e => e.1 = m).map Prod.snd =
      (entryAt? m entries).getD [] := by
  induction entries with
  | nil => rfl
  | cons e rest ih =>
    obtain ⟨a, targets⟩ := e
    obtain ⟨ha, hrest⟩ := List.nodup_cons.1 h
    rw [List.flatMap_cons, List.filter_append, List.map_append, ih hrest, entryAt?]
    by_cases hm : a = m
    · subst hm
      have hnone : entryAt? a rest = none := Table.entryAt?_eq_none_iff.2 ha
      simp [hnone, List.filter_map, Function.comp_def]
    · simp [hm, List.filter_map, Function.comp_def]

theorem targets_edgesOf (t : Table ModuleId (List ModuleId)) (m : ModuleId) :
    ((edgesOf t).filter fun e => e.1 = m).map Prod.snd = t.getD m [] :=
  targets_of_entries t.nodup m

theorem mem_edgesOf : (a, b) ∈ edgesOf t ↔ b ∈ t.getD a [] := by
  rw [← targets_edgesOf]
  simp

theorem draftOf_edgesOf (pairs : List (ModuleId × ModuleId)) (nodes : List ModuleId) :
    draftOf (edgesOf (draftOf pairs nodes).adjacency) (draftOf pairs nodes).adjacency.keys =
      draftOf pairs nodes := by
  set d := draftOf pairs nodes with hd
  have hmem : ∀ e, e ∈ edgesOf d.adjacency ↔ e ∈ pairs := fun e =>
    mem_edgesOf.trans mem_targets_draftOf
  have hends : ∀ m ∈ (edgesOf d.adjacency).flatMap (fun e => [e.1, e.2]), m ∈ d.adjacency.keys := by
    intro m hm
    obtain ⟨e, he, hm⟩ := List.mem_flatMap.1 hm
    rw [← Table.contains_iff, hd, contains_draftOf]
    exact .inr ⟨e, (hmem e).1 he, by simpa using hm⟩
  have hkeys : (draftOf (edgesOf d.adjacency) d.adjacency.keys).adjacency.keys =
      d.adjacency.keys := by
    rw [keys_draftOf, distinct_append_of_subset hends, distinct_eq_self d.adjacency.nodup_keys]
  have htargets : ∀ m, (draftOf (edgesOf d.adjacency) d.adjacency.keys).targets m =
      d.targets m := by
    intro m
    have hnodup : (d.targets m).Nodup := targets_draftOf pairs nodes m ▸ nodup_distinct _
    rw [targets_draftOf, targets_edgesOf]
    exact distinct_eq_self hnodup
  have hcount : (draftOf (edgesOf d.adjacency) d.adjacency.keys).edgeCount = d.edgeCount := by
    refine (edgeCount_ofEdges _ _).trans (.trans ?_ (edgeCount_ofEdges pairs nodes).symm)
    exact (distinct_perm hmem).length_eq
  have hadjacency := Table.eq_of_keys [] hkeys htargets
  generalize draftOf (edgesOf d.adjacency) d.adjacency.keys = rebuilt at hadjacency hcount
  cases rebuilt
  cases hadjacency
  cases hcount
  rfl

theorem ofEdges_edgesOf (pairs : List (ModuleId × ModuleId)) (nodes : List ModuleId) :
    ofEdges (edgesOf (ofEdges pairs nodes).adjacency) (ofEdges pairs nodes).adjacency.keys =
      ofEdges pairs nodes :=
  congrArg Draft.graph (draftOf_edgesOf pairs nodes)

end Edges

section Merged

variable {dependencies ds : List (Value × Value)} {d : Value × Value}

/-- The dependencies of each module, of one that is named twice the last. -/
def mergedDependencies (dependencies : List (Value × Value)) : List (Value × Value) :=
  dependencies.foldl (fun ds d => putDependency d ds) []

def edgesFrom (d : Value × Value) : Except RankingError (List Value) := do
  let targets ← itemsOf d.2
  pure (targets.map fun t => .tuple [d.1, t])

theorem readDependencies?_eq (dependencies : List (Value × Value)) :
    readDependencies? dependencies =
      (mergedDependencies dependencies).mapM edgesFrom >>= fun edges =>
        read? (.list edges.flatten) (.list ((mergedDependencies dependencies).map Prod.fst)) := rfl

def writtenDependencies (t : Table ModuleId (List ModuleId)) : List (Value × Value) :=
  t.entries.map fun e => (.text e.1, .tuple (e.2.map .text))

theorem putDependency_of_new {m : ModuleId} {targets : Value} (h : ∀ e ∈ ds, e.1 ≠ .text m) :
    putDependency (.text m, targets) ds = ds ++ [(.text m, targets)] := by
  induction ds with
  | nil => rfl
  | cons e rest ih =>
    obtain ⟨he, hrest⟩ := List.forall_mem_cons.1 h
    obtain ⟨key, value⟩ := e
    cases key with
    | text n =>
      have hne : m ≠ n := fun heq => he (congrArg Value.text heq.symm)
      simp [putDependency, hne, ih hrest]
    | _ => simp [putDependency, ih hrest]

theorem mergedDependencies_eq_self {entries : List (ModuleId × List ModuleId)}
    (h : (entries.map Prod.fst).Nodup) :
    mergedDependencies (entries.map fun e => (.text e.1, .tuple (e.2.map .text))) =
      entries.map fun e => (.text e.1, .tuple (e.2.map .text)) := by
  unfold mergedDependencies
  induction entries using List.reverseRecOn with
  | nil => rfl
  | append_singleton entries e ih =>
    rw [List.map_append, List.nodup_append] at h
    obtain ⟨hnodup, -, hnew⟩ := h
    rw [List.map_append, List.map_singleton, List.foldl_concat, ih hnodup]
    refine putDependency_of_new fun d hd heq => ?_
    obtain ⟨e', he', rfl⟩ := List.mem_map.1 hd
    exact hnew e'.1 (List.mem_map_of_mem he') e.1 (by simp) (Value.text.inj heq)

theorem forall_mergedDependencies {P Q : Value → Prop} (h : ∀ d ∈ dependencies, P d.1 ∧ Q d.2) :
    ∀ d ∈ mergedDependencies dependencies, P d.1 ∧ Q d.2 := by
  have hput : ∀ ds, (∀ e ∈ ds, P e.1 ∧ Q e.2) → ∀ d, P d.1 ∧ Q d.2 →
      ∀ e ∈ putDependency d ds, P e.1 ∧ Q e.2 := by
    intro ds hds d hd
    induction ds with
    | nil => simpa [putDependency] using hd
    | cons e rest ih =>
      obtain ⟨he, hrest⟩ := List.forall_mem_cons.1 hds
      unfold putDependency
      split
      · split
        · exact List.forall_mem_cons.2 ⟨⟨he.1, hd.2⟩, hrest⟩
        · exact List.forall_mem_cons.2 ⟨he, ih hrest⟩
      · exact List.forall_mem_cons.2 ⟨he, ih hrest⟩
  unfold mergedDependencies
  induction dependencies using List.reverseRecOn with
  | nil => simp
  | append_singleton dependencies d ih =>
    obtain ⟨hall, hd⟩ := List.forall_mem_append.1 h
    rw [List.foldl_concat]
    exact hput _ (ih hall) d (hd d (by simp))

end Merged

section Read

theorem not_blank_of_readEdge {v : Value} {e : ModuleId × ModuleId} (h : readEdge v = .ok e) :
    Text.isBlank e.1 = false ∧ Text.isBlank e.2 = false := by
  unfold readEdge at h
  split at h
  · cases h
  · split at h
    · obtain ⟨a, ha, h⟩ := Outcome.bind_eq_ok.1 h
      obtain ⟨b, hb, h⟩ := Outcome.bind_eq_ok.1 h
      cases h
      exact ⟨(readId_eq_ok.1 ha).2, (readId_eq_ok.1 hb).2⟩
    · cases h

theorem exists_not_blank_of_read? {edges isolated : Value} (h : read? edges isolated = .ok g) :
    ∃ pairs nodes, g = ofEdges pairs nodes ∧ (∀ m ∈ nodes, Text.isBlank m = false) ∧
      ∀ e ∈ pairs, Text.isBlank e.1 = false ∧ Text.isBlank e.2 = false := by
  obtain ⟨values, -, h⟩ := Outcome.bind_eq_ok.1 h
  obtain ⟨nodes, hnodes, h⟩ := Outcome.bind_eq_ok.1 h
  obtain ⟨given, -, h⟩ := Outcome.bind_eq_ok.1 h
  obtain ⟨pairs, hpairs, h⟩ := Outcome.bind_eq_ok.1 h
  cases h
  refine ⟨pairs, nodes, rfl, fun m hm => ?_, fun e he => ?_⟩
  · obtain ⟨v, -, hv⟩ := Outcome.exists_of_mem_mapM hnodes hm
    exact (readId_eq_ok.1 hv).2
  · obtain ⟨v, -, hv⟩ := Outcome.exists_of_mem_mapM hpairs he
    exact not_blank_of_readEdge hv

theorem readDependencies?_written (hkeys : ∀ m ∈ t.keys, Text.isBlank m = false)
    (hedges : ∀ e ∈ edgesOf t, Text.isBlank e.1 = false ∧ Text.isBlank e.2 = false) :
    readDependencies? (writtenDependencies t) = .ok (ofEdges (edgesOf t) t.keys) := by
  have hmerged : mergedDependencies (writtenDependencies t) = writtenDependencies t :=
    mergedDependencies_eq_self t.nodup
  have hfrom : (writtenDependencies t).mapM edgesFrom =
      .ok (t.entries.map fun e => e.2.map fun b => .tuple [.text e.1, .text b]) := by
    unfold writtenDependencies
    rw [Outcome.mapM_eq_ok, List.forall₂_map_left_iff, List.forall₂_map_right_iff,
      List.forall₂_same]
    intro e _
    simp [edgesFrom, itemsOf, Value.items?, bind, Except.bind, pure, Except.pure]
  have hpairs : (t.entries.map fun e => e.2.map fun b => Value.tuple [.text e.1, .text b]).flatten =
      (edgesOf t).map fun e => .tuple [.text e.1, .text e.2] := by
    unfold edgesOf
    simp [List.flatMap_def, List.map_flatten, Function.comp_def]
  have hnodes : (writtenDependencies t).map Prod.fst = t.keys.map .text := by
    simp [writtenDependencies, Table.keys, Function.comp_def]
  rw [readDependencies?_eq, hmerged, hfrom, hnodes]
  exact (congrArg (read? · _) (congrArg Value.list hpairs)).trans (read?_written hkeys hedges)

theorem readDependencies?_of_read? {edges isolated : Value} (h : read? edges isolated = .ok g) :
    readDependencies? (writtenDependencies g.adjacency) = .ok g := by
  obtain ⟨pairs, nodes, rfl, hnodes, hpairs⟩ := exists_not_blank_of_read? h
  have hnamed : ∀ m ∈ (ofEdges pairs nodes).adjacency.keys, Text.isBlank m = false := by
    intro m hm
    rcases (represents_ofEdges pairs nodes).mem_keys m |>.1 hm with hm | ⟨e, he, rfl | rfl⟩
    · exact hnodes m hm
    · exact (hpairs e he).1
    · exact (hpairs e he).2
  have hedges : ∀ e ∈ edgesOf (ofEdges pairs nodes).adjacency, e ∈ pairs := fun e he =>
    (mem_outgoing_ofEdges pairs nodes).1 (mem_edgesOf.1 he)
  rw [readDependencies?_written hnamed fun e he => hpairs e (hedges e he), ofEdges_edgesOf]

def YieldsIds (v : Value) : Prop :=
  ∃ targets, v.items? = some targets ∧ ∀ target ∈ targets, isId target = true

theorem exists_read?_of_tuples {edges nodes : List Value} (hnodes : ∀ v ∈ nodes, isId v = true)
    (hedges : ∀ v ∈ edges, ∃ a b, v = .tuple [a, b] ∧ isId a = true ∧ isId b = true) :
    ∃ g, read? (.list edges) (.list nodes) = .ok g := by
  rw [← Outcome.failure?_eq_none, failure?_read?, Option.map_eq_none_iff, firstUnmet?_eq_none]
  refine ⟨fun v hv => isId_iff.1 (hnodes v hv), fun v hv => ?_⟩
  obtain ⟨a, b, rfl, ha, hb⟩ := hedges v hv
  obtain ⟨m, rfl, hm⟩ := isId_iff.1 ha
  obtain ⟨n, rfl, hn⟩ := isId_iff.1 hb
  exact ⟨nofun, m, n, rfl, hm, hn⟩

theorem exists_readDependencies? {dependencies : List (Value × Value)}
    (h : ∀ d ∈ dependencies, isId d.1 = true ∧ YieldsIds d.2) : ∃ g edges isolated,
      readDependencies? dependencies = .ok g ∧ read? edges isolated = .ok g := by
  have hmerged := forall_mergedDependencies (P := (isId · = true)) h
  obtain ⟨edges, hfrom, -, hedges⟩ := Outcome.mapM_ok (f := edgesFrom)
    (P := fun edges => ∀ v ∈ edges, ∃ a b, v = .tuple [a, b] ∧ isId a = true ∧ isId b = true)
    fun d hd => by
      obtain ⟨hkey, targets, htargets, hall⟩ := hmerged d hd
      refine ⟨_, Outcome.bind_eq_ok.2 ⟨targets, itemsOf_eq_ok.2 htargets, rfl⟩, fun v hv => ?_⟩
      obtain ⟨target, htarget, rfl⟩ := List.mem_map.1 hv
      exact ⟨d.1, target, rfl, hkey, hall target htarget⟩
  have hnodes : ∀ v ∈ (mergedDependencies dependencies).map Prod.fst, isId v = true := by
    intro v hv
    obtain ⟨d, hd, rfl⟩ := List.mem_map.1 hv
    exact (hmerged d hd).1
  have htuples : ∀ v ∈ edges.flatten, ∃ a b, v = .tuple [a, b] ∧ isId a = true ∧ isId b = true := by
    intro v hv
    obtain ⟨vs, hvs, hv⟩ := List.mem_flatten.1 hv
    exact hedges vs hvs v hv
  obtain ⟨g, hg⟩ := exists_read?_of_tuples hnodes htuples
  refine ⟨g, _, _, ?_, hg⟩
  rw [readDependencies?_eq, hfrom]
  exact hg

/-- A graph that was read, from edges or from dependencies, is rebuilt from its own dependencies to
the last detail, and dependencies among modules can always be read. -/
theorem readDependencies?_rebuilds :
    (∀ edges isolated g, read? edges isolated = .ok g →
      readDependencies? (writtenDependencies g.adjacency) = .ok g) ∧
    ∀ dependencies : List (Value × Value),
      (∀ d ∈ dependencies, isId d.1 = true ∧ YieldsIds d.2) →
        ∃ g, readDependencies? dependencies = .ok g ∧
          readDependencies? (writtenDependencies g.adjacency) = .ok g := by
  refine ⟨fun edges isolated g h => readDependencies?_of_read? h, fun dependencies h => ?_⟩
  obtain ⟨g, edges, isolated, hdependencies, hread⟩ := exists_readDependencies? h
  exact ⟨g, hdependencies, readDependencies?_of_read? hread⟩

theorem readDependencies?_rebuilds_repeated : ∃ g,
    readDependencies? [(.text "b", .list [.text "c", .text "b", .text "c"]),
      (.text "a", .text "b")] = .ok g ∧
    g.adjacency.entries = [("b", ["c", "b"]), ("a", ["b"]), ("c", [])] ∧
    readDependencies? [(.text "b", .tuple [.text "c", .text "b"]), (.text "a", .tuple [.text "b"]),
      (.text "c", .tuple [])] = .ok g := by
  obtain ⟨g, hg, hrebuilt⟩ := readDependencies?_rebuilds.2
    [(.text "b", .list [.text "c", .text "b", .text "c"]), (.text "a", .text "b")] (by
      simp only [List.forall_mem_cons]
      exact ⟨⟨by decide, _, rfl, by decide⟩, ⟨by decide, _, rfl, by decide⟩, nofun⟩)
  have hread : readDependencies? [(.text "b", .list [.text "c", .text "b", .text "c"]),
      (.text "a", .text "b")] =
        .ok (ofEdges [("b", "c"), ("b", "b"), ("b", "c"), ("a", "b")] ["b", "a"]) := rfl
  obtain rfl := Except.ok.inj (hread.symm.trans hg)
  exact ⟨_, hread, rfl, hrebuilt⟩

end Read

end ModuleGraph

end DependencyRanking
