import HackPlatform.Proofs.Vm.Sites

/-!
# Labels of the output

The labels of all units end up in one name space. Two definitions are written alike only where the
source asks for it, by defining a function again or a label again within one scope; a label that the
translator made is met nowhere outside its block.
-/

namespace HackPlatform.Vm

open Asm (Statement)

/-- The lines of blocks, each with the number of its block. -/
def placed (sites : List Site) : List (Nat × Line) :=
  sites.zipIdx.flatMap fun s => s.1.lines.map fun line => (s.2, line)

theorem map_snd_placed (sites : List Site) :
    (placed sites).map Prod.snd = sites.flatMap Site.lines := by
  have forget : (placed sites).map Prod.snd = (sites.zipIdx.map Prod.fst).flatMap Site.lines := by
    rw [placed, List.map_flatMap, List.flatMap_map]
    simp [Function.comp_def]
  rw [forget, List.zipIdx_map_fst]

theorem mem_placed {sites : List Site} {k : Nat} {line : Line} :
    (k, line) ∈ placed sites ↔ ∃ s, sites[k]? = some s ∧ line ∈ s.lines := by
  simp only [placed, List.mem_flatMap, List.mem_map, Prod.mk.injEq]
  constructor
  · rintro ⟨⟨s, _⟩, at_k, _, mem, rfl, rfl⟩
    exact ⟨s, List.mk_mem_zipIdx_iff_getElem?.1 at_k, mem⟩
  · rintro ⟨s, at_k, mem⟩
    exact ⟨(s, k), List.mk_mem_zipIdx_iff_getElem?.2 at_k, line, mem, rfl, rfl⟩

theorem Site.code_mem_lines {s : Site} {st : Statement Symbol} :
    .code st ∈ s.lines ↔ st ∈ s.code := by
  simp [lines]

/-- A block defines no label on two lines. -/
theorem Site.lines_pairwise (s : Site) :
    s.lines.Pairwise fun x y => ∀ a, x = .code (.label a) → y ≠ .code (.label a) := by
  have labels := s.labels_nodup
  rw [← s.code_labels, List.Nodup, List.pairwise_filterMap] at labels
  refine List.pairwise_append.2 ⟨?_, ?_, ?_⟩
  · refine List.pairwise_map.2 (List.pairwise_of_forall fun _ _ a note => ?_)
    cases note
  · refine List.pairwise_map.2 (labels.imp fun apart a hx hy => ?_)
    cases hx
    cases hy
    exact apart a rfl a rfl rfl
  · intro x hx y _ a label
    obtain ⟨note, -, rfl⟩ := List.mem_map.1 hx
    cases label

/-- A made label stands on one line only. -/
theorem placed_pairwise {sites : List Site} (counted : Counted sites) :
    (placed sites).Pairwise fun x y =>
      ∀ mark n, x.2 = .code (.label (.made mark n)) → y.2 ≠ .code (.label (.made mark n)) := by
  refine List.pairwise_flatMap.2 ⟨?_, ?_⟩
  · rintro ⟨s, k⟩ -
    exact List.pairwise_map.2 (s.lines_pairwise.imp fun apart mark n => apart _)
  · have apart : (sites.zipIdx.map Prod.fst).Pairwise fun s t => s.after ≤ t.scope.labelCount := by
      rw [List.zipIdx_map_fst]
      exact counted
    refine (List.pairwise_map.1 apart).imp ?_
    rintro ⟨s, k⟩ ⟨t, l⟩ before x hx y hy mark n label label'
    obtain ⟨line, mem, rfl⟩ := List.mem_map.1 hx
    obtain ⟨line', mem', rfl⟩ := List.mem_map.1 hy
    cases label
    cases label'
    obtain ⟨-, rfl, grows⟩ := Site.made_mem_labels (s.code_names _ (Site.code_mem_lines.1 mem) _ rfl)
    obtain ⟨-, same, -⟩ := Site.made_mem_labels (t.code_names _ (Site.code_mem_lines.1 mem') _ rfl)
    have before : s.after ≤ t.scope.labelCount := before
    omega

/-! ## Definitions of labels -/

/-- A line of the output defines a label, in the block with the given number. -/
structure DefinesAt (sites : List Site) (line block : Nat) (s : Site) (a : Symbol) : Prop where
  line : (placed sites)[line]? = some (block, .code (.label a))
  site : sites[block]? = some s

/-- A line of the output refers to a name, in the block with the given number. -/
def RefersAt (sites : List Site) (line block : Nat) (a : Symbol) : Prop :=
  (placed sites)[line]? = some (block, .code (.reference a))

/-- Two blocks start a function of one name, and these are its labels. -/
def SameFunction (s t : Site) (a b : Symbol) : Prop :=
  ∃ f n m, s.task = .command (.function f n) ∧ t.task = .command (.function f m) ∧
    a = .function f ∧ b = .function f

/-- Two blocks declare a label of one name within scopes that share their labels. -/
def SameLabel (s t : Site) : Prop :=
  ∃ name, s.task = .command (.label name) ∧ t.task = .command (.label name) ∧
    s.scope.SameLabels t.scope

theorem Scope.labelSymbol_injective {s t : Scope} {name other : String}
    (h : s.labelSymbol name = t.labelSymbol other) : name = other ∧ s.SameLabels t := by
  unfold Scope.labelSymbol at h
  cases here : s.function with
  | some f =>
    cases there : t.function with
    | some g =>
      simp only [here, there, Symbol.inFunction.injEq] at h
      exact ⟨h.2, by rw [here, there, h.1], by simp [here]⟩
    | none => simp [here, there] at h
  | none =>
    cases there : t.function with
    | some g => simp [here, there] at h
    | none =>
      simp only [here, there, Symbol.inUnit.injEq] at h
      exact ⟨h.2, by rw [here, there], fun _ => h.1⟩

/-- A label of a block is that of its function or label command, or was made. -/
theorem Site.mem_labels {s : Site} {a : Symbol} (h : a ∈ s.labels) :
    (∃ f n, s.task = .command (.function f n) ∧ a = .function f) ∨
      (∃ name, s.task = .command (.label name) ∧ a = s.scope.labelSymbol name) ∨
      ∃ mark n, a = .made mark n := by
  obtain ⟨scope, note, task⟩ := s
  cases task with
  | setStack base => cases h
  | command c =>
    obtain ⟨f, n, rfl, rfl⟩ | ⟨name, rfl, rfl⟩ | made := Command.mem_labels h
    · exact .inl ⟨f, n, rfl, rfl⟩
    · exact .inr (.inl ⟨name, rfl, rfl⟩)
    · exact .inr (.inr made)

/-- The labels of a sound block have parts that are names of the source. -/
theorem Site.Sound.label {s : Site} {a : Symbol} (h : s.Sound) (mem : a ∈ s.labels) : a.Label := by
  have named := (h.names (s.code_names _ (Site.mem_labels_iff.1 mem) a rfl)).1
  obtain ⟨f, n, -, rfl⟩ | ⟨name, -, rfl⟩ | ⟨mark, n, rfl⟩ := Site.mem_labels mem
  · exact named
  · unfold Scope.labelSymbol at named ⊢
    split at named <;> exact named
  · exact named

/-- Labels of the source that are the same come from the same function or label. -/
theorem sameSource {s t : Site} {a : Symbol} (hs : a ∈ s.labels) (ht : a ∈ t.labels)
    (source : ∀ mark n, a ≠ .made mark n) : SameFunction s t a a ∨ SameLabel s t := by
  obtain ⟨f, n, task, rfl⟩ | ⟨name, task, rfl⟩ | ⟨mark, n, made⟩ := Site.mem_labels hs
  · obtain ⟨g, m, task', same⟩ | ⟨name, -, same⟩ | ⟨mark, m, made⟩ := Site.mem_labels ht
    · cases same
      exact .inl ⟨f, n, m, task, task', rfl, rfl⟩
    · unfold Scope.labelSymbol at same
      split at same <;> cases same
    · exact absurd made (source mark m)
  · obtain ⟨g, m, -, same⟩ | ⟨other, task', same⟩ | ⟨mark, m, made⟩ := Site.mem_labels ht
    · unfold Scope.labelSymbol at same
      split at same <;> cases same
    · obtain ⟨rfl, scopes⟩ := Scope.labelSymbol_injective same
      exact .inr ⟨name, task, task', scopes⟩
    · exact absurd made (source mark m)
  · exact absurd made (source mark n)

namespace DefinesAt

variable {sites : List Site} {i j k l : Nat} {s t : Site} {a b : Symbol}

theorem mem_labels (h : DefinesAt sites i k s a) : a ∈ s.labels := by
  obtain ⟨_, at_k, mem⟩ := mem_placed.1 (List.mem_of_getElem? h.line)
  rw [h.site] at at_k
  cases at_k
  exact Site.mem_labels_iff.2 (Site.code_mem_lines.1 mem)

theorem label (h : DefinesAt sites i k s a) (sound : ∀ s ∈ sites, s.Sound) : a.Label :=
  (sound s (List.mem_of_getElem? h.site)).label h.mem_labels

/-- A made label has one definition. -/
theorem made_unique {mark : Mark} {n : Nat} (counted : Counted sites)
    (h : DefinesAt sites i k s (.made mark n)) (h' : DefinesAt sites j l t (.made mark n)) :
    i = j := by
  have apart := List.pairwise_iff_getElem.1 (placed_pairwise counted)
  obtain ⟨hi, here⟩ := List.getElem?_eq_some_iff.1 h.line
  obtain ⟨hj, there⟩ := List.getElem?_eq_some_iff.1 h'.line
  rcases Nat.lt_trichotomy i j with lt | rfl | lt
  · exact absurd (by rw [there]) (apart i j hi hj lt mark n (by rw [here]))
  · rfl
  · exact absurd (by rw [here]) (apart j i hj hi lt mark n (by rw [there]))

end DefinesAt

/-- A label of a block is defined on one of its lines. -/
theorem exists_definesAt {sites : List Site} {k : Nat} {s : Site} {a : Symbol}
    (site : sites[k]? = some s) (mem : a ∈ s.labels) : ∃ i, DefinesAt sites i k s a := by
  have line : (k, .code (.label a)) ∈ placed sites :=
    mem_placed.2 ⟨s, site, Site.code_mem_lines.2 (Site.mem_labels_iff.1 mem)⟩
  obtain ⟨i, there⟩ := List.getElem?_of_mem line
  exact ⟨i, there, site⟩

/-- A made label that a line refers to is defined in the block of that line. -/
theorem definesAt_of_reference {sites : List Site} {j l : Nat} {mark : Mark} {n : Nat}
    (h : RefersAt sites j l (.made mark n)) : ∃ i s, DefinesAt sites i l s (.made mark n) := by
  obtain ⟨s, site, mem⟩ := mem_placed.1 (List.mem_of_getElem? h)
  have named := s.code_names _ (Site.code_mem_lines.1 mem) _ rfl
  obtain ⟨i, defines⟩ := exists_definesAt site (Site.made_mem_labels named).1
  exact ⟨i, s, defines⟩

theorem DefinesAt.of_label {sites : List Site} {i k : Nat} {s : Site} {a : Symbol} {name : String}
    (h : DefinesAt sites i k s a) (task : s.task = .command (.label name)) :
    a = s.scope.labelSymbol name := by
  have mem := h.mem_labels
  rw [Site.labels, task] at mem
  exact List.mem_singleton.1 mem

/-- Two definitions are written alike exactly where the source defines one thing twice. -/
theorem text_eq_iff {sites : List Site} {i j k l : Nat} {s t : Site} {a b : Symbol}
    (counted : Counted sites) (sound : ∀ s ∈ sites, s.Sound) (h : DefinesAt sites i k s a)
    (h' : DefinesAt sites j l t b) (apart : i ≠ j) :
    a.text = b.text ↔ SameFunction s t a b ∨ SameLabel s t := by
  constructor
  · intro alike
    obtain rfl := Symbol.text_injective (h.label sound) (h'.label sound) alike
    refine sameSource h.mem_labels h'.mem_labels fun mark n made => apart ?_
    subst made
    exact h.made_unique counted h'
  · rintro (⟨f, n, m, -, -, rfl, rfl⟩ | ⟨name, task, task', scopes⟩)
    · rfl
    · rw [h.of_label task, h'.of_label task', scopes.labelSymbol]

/-- What is written like a made label is that label. -/
theorem Site.Sound.eq_made {s t : Site} {a : Symbol} {mark : Mark} {n : Nat} (hs : s.Sound)
    (ht : t.Sound) (named : s.Names (.made mark n)) (other : t.Names a)
    (alike : a.text = (Symbol.made mark n).text) : a = .made mark n :=
  Symbol.eq_made (ht.names other).1 (hs.names named).1 alike

/-- Label hygiene of the lines of blocks. Definitions on two lines are written alike exactly where
the source defines one thing again. A made label is defined on one line, and no other definition is
written like it; what refers to it stands in the block that defines it, and every one that is
referred to is defined. -/
structure Hygienic (sites : List Site) : Prop where
  source : ∀ i j k l s t a b, DefinesAt sites i k s a → DefinesAt sites j l t b → i ≠ j →
    (a.text = b.text ↔ SameFunction s t a b ∨ SameLabel s t)
  once : ∀ i k s mark n, DefinesAt sites i k s (.made mark n) →
    ∀ j l t b, DefinesAt sites j l t b → b.text = (Symbol.made mark n).text → j = i
  inside : ∀ i k s mark n, DefinesAt sites i k s (.made mark n) →
    ∀ j l b, RefersAt sites j l b → b.text = (Symbol.made mark n).text → l = k
  defined : ∀ j l mark n, RefersAt sites j l (.made mark n) →
    ∃ i s, DefinesAt sites i l s (.made mark n)

/-- Sound blocks that are counted have their labels in order. -/
theorem hygienic {sites : List Site} (counted : Counted sites) (sound : ∀ s ∈ sites, s.Sound) :
    Hygienic sites := by
  have alone {i k : Nat} {s t : Site} {l : Nat} {b : Symbol} {mark : Mark} {n : Nat}
      (here : DefinesAt sites i k s (.made mark n)) (there : sites[l]? = some t)
      (named : t.Names b) (alike : b.text = (Symbol.made mark n).text) : b = .made mark n := by
    have own := s.code_names _ (Site.mem_labels_iff.1 here.mem_labels) _ rfl
    exact (sound s (List.mem_of_getElem? here.site)).eq_made
      (sound t (List.mem_of_getElem? there)) own named alike
  refine ⟨?_, ?_, ?_, ?_⟩
  · intro i j k l s t a b here there apart
    exact text_eq_iff counted sound here there apart
  · intro i k s mark n here j l t b there alike
    have named := t.code_names _ (Site.mem_labels_iff.1 there.mem_labels) _ rfl
    obtain rfl := alone here there.site named alike
    exact there.made_unique counted here
  · intro i k s mark n here j l b there alike
    obtain ⟨t, site, mem⟩ := mem_placed.1 (List.mem_of_getElem? there)
    have named := t.code_names _ (Site.code_mem_lines.1 mem) _ rfl
    obtain rfl := alone here site named alike
    obtain ⟨i', t', defines⟩ := definesAt_of_reference there
    obtain rfl := defines.made_unique counted here
    have line := defines.line.symm.trans here.line
    cases line
    rfl
  · exact fun j l mark n => definesAt_of_reference

/-- The output of every translation is made of the blocks of its outline, and the labels of these
are hygienic. -/
theorem labels_hygienic {units : List (String × String)} {bootstrap : Bool} {config : Config}
    {text : String} (h : translateSources units bootstrap config = .ok text) :
    text = Page.text ⟨((placed (outline units bootstrap config)).map Prod.snd).toArray⟩ ∧
      Hygienic (outline units bootstrap config) := by
  obtain ⟨page, translated, rfl⟩ := translateSources_eq_ok h
  obtain ⟨lines, allowed⟩ := translate_outline translated
  refine ⟨?_, hygienic (outline_counted units bootstrap config) (outline_sound allowed)⟩
  rw [map_snd_placed, ← lines]

/-- Two units of one name share their labels outside functions. -/
theorem labels_hygienic_of_shared_unit :
    translateSources [("A", "label x"), ("A", "label x")] false ⟨.auto, "Sys.init", 256, false⟩ =
        .ok "($A$x)\n($A$x)\n" ∧
      Hygienic (outline [("A", "label x"), ("A", "label x")] false
        ⟨.auto, "Sys.init", 256, false⟩) := by
  have output : translateSources [("A", "label x"), ("A", "label x")] false
      ⟨.auto, "Sys.init", 256, false⟩ = .ok "($A$x)\n($A$x)\n" :=
    eq_ok_of_toOption (by decide +kernel)
  exact ⟨output, (labels_hygienic output).2⟩

end HackPlatform.Vm
