import ViewForge.Proofs.Element.Reader
import ViewForge.Proofs.Ordered

/-! The registries that reading fills, one sheet or component after the other, and what holds in all
of them: groups and components are known by their names and files, and whatever is registered has
been read. -/
namespace ViewForge
open Markup (Node)

namespace StyleGroup

theorem readStylesDistinct {g h : StyleGroup} {nodes : List Node}
    (distinct : (g.styles.map Style.name).Nodup) (ok : readStyles g nodes = .ok h) :
    (h.styles.map Style.name).Nodup := by
  induction nodes generalizing g with
  | nil =>
    cases ok
    exact distinct
  | cons node rest ih =>
    rw [readStyles] at ok
    obtain ⟨style, _, ok⟩ := Result.bindOk.mp ok
    split at ok
    · cases ok
    · rename_i fresh
      refine ih ?_ ok
      rw [List.map_append, List.map_singleton]
      refine List.nodup_append.mpr ⟨distinct, List.nodup_singleton _, ?_⟩
      rintro name present other last rfl
      obtain ⟨s, member, same⟩ := List.mem_map.mp present
      refine fresh (List.find?_isSome.mpr ⟨s, member, ?_⟩)
      rw [same, List.mem_singleton.mp last]
      exact beq_self_eq_true _

theorem readDistinct {node : Node} {fallback : Option String} {g : StyleGroup}
    (ok : read node fallback = .ok g) : (g.styles.map Style.name).Nodup := by
  unfold read at ok
  split at ok <;> try contradiction
  rename_i name _
  exact readStylesDistinct (g := { name }) List.nodup_nil ok

theorem findSelf {g : StyleGroup} (distinct : (g.styles.map Style.name).Nodup) {s : Style}
    (member : s ∈ g.styles) : g.find? s.name = some s := by
  cases found : g.find? s.name with
  | none =>
    have none := List.find?_eq_none.mp found s member
    simp at none
  | some t =>
    have same : t.name = s.name := by simpa using List.find?_some found
    rw [List.inj_on_of_nodup_map distinct (List.mem_of_find?_eq_some found) member same]

def readLetters (cs : List Char) : Result StyleGroup := do
  let root ← Markup.readLetters cs
  if root.name ≠ "styleGroup" then .error (.document (.styleSheetExpected root.name))
  read root none

theorem parseSheetLetters {text : String} {cs : List Char} (letters : text = String.ofList cs) :
    parseSheet text = readLetters cs := by
  rw [parseSheet, Markup.parseLetters letters, readLetters]

end StyleGroup

namespace Registry

inductive Filled : Registry → Prop where
  | empty (platform : Platform) (application : Application) : Filled { platform, application }
  | group {r : Registry} {node : Node} {fallback : Option String} {g : StyleGroup}
      (filled : Filled r) (read : StyleGroup.read node fallback = .ok g) :
      Filled (r.addGroup g).1
  | component {r : Registry} {path text : String} {d : ComponentDefinition}
      {warnings : List String} (filled : Filled r)
      (read : Compilation.readComponent r.platform path text = (.ok d, warnings)) :
      Filled (r.addComponent d)

theorem groupNamesDistinct {r : Registry} (filled : r.Filled) :
    (r.styleGroups.map Prod.fst).Nodup := by
  induction filled with
  | empty => exact List.nodup_nil
  | group _ _ ih => exact Ordered.nodupPut ih
  | component _ _ ih => exact ih

theorem groupsRead {r : Registry} (filled : r.Filled) {name : String} {g : StyleGroup}
    (member : (name, g) ∈ r.styleGroups) :
    g.name = name ∧ ∃ node fallback, StyleGroup.read node fallback = .ok g := by
  induction filled with
  | empty => simp at member
  | group _ read ih =>
    rcases Ordered.memPut member with same | earlier
    · cases same
      exact ⟨rfl, _, _, read⟩
    · exact ih earlier
  | component _ _ ih => exact ih member

theorem memReplaceOrAdd {d x : ComponentDefinition} {ds : List ComponentDefinition}
    (member : x ∈ replaceOrAdd d ds) : x = d ∨ x ∈ ds := by
  induction ds with
  | nil => exact .inl (List.mem_singleton.mp member)
  | cons e rest ih =>
    rw [replaceOrAdd] at member
    split at member
    · exact (List.mem_cons.mp member).imp id (List.mem_cons_of_mem _)
    · rcases List.mem_cons.mp member with rfl | later
      · exact .inr List.mem_cons_self
      · exact (ih later).imp id (List.mem_cons_of_mem _)

theorem replaceOrAddSelf (d : ComponentDefinition) (ds : List ComponentDefinition) :
    d ∈ replaceOrAdd d ds := by
  induction ds with
  | nil => exact List.mem_singleton_self d
  | cons e rest ih =>
    rw [replaceOrAdd]
    split
    · exact List.mem_cons_self
    · exact List.mem_cons_of_mem _ ih

theorem addedRegistered (r : Registry) (d : ComponentDefinition) :
    d ∈ (r.addComponent d).definitions :=
  List.mem_flatMap.mpr ⟨_, Ordered.memOfLookup (Ordered.lookupPutSelf _ _ _), replaceOrAddSelf d _⟩

theorem replaceOrAddDistinct {d : ComponentDefinition} {ds : List ComponentDefinition}
    (distinct : (ds.map (·.sourcePath)).Nodup) :
    ((replaceOrAdd d ds).map (·.sourcePath)).Nodup := by
  induction ds with
  | nil => exact List.nodup_singleton _
  | cons e rest ih =>
    obtain ⟨fresh, distinct⟩ := List.nodup_cons.mp distinct
    rw [replaceOrAdd]
    split
    · rename_i same
      rw [List.map_cons, ← eq_of_beq same]
      exact List.nodup_cons.mpr ⟨fresh, distinct⟩
    · rename_i other
      refine List.nodup_cons.mpr ⟨?_, ih distinct⟩
      intro again
      obtain ⟨x, member, same⟩ := List.mem_map.mp again
      rcases memReplaceOrAdd member with rfl | before
      · exact other (beq_iff_eq.mpr same.symm)
      · exact fresh (List.mem_map.mpr ⟨x, before, same⟩)

theorem componentNamesDistinct {r : Registry} (filled : r.Filled) :
    (r.components.map Prod.fst).Nodup := by
  induction filled with
  | empty => exact List.nodup_nil
  | group _ _ ih => exact ih
  | component _ _ ih => exact Ordered.nodupPut ih

structure OfType (name : String) (ds : List ComponentDefinition) : Prop where
  files : (ds.map (·.sourcePath)).Nodup
  named : ∀ d ∈ ds, d.typeName = name
  read : ∀ d ∈ ds, ∃ platform path text warnings,
    Compilation.readComponent platform path text = (.ok d, warnings)

theorem componentsOfType {r : Registry} (filled : r.Filled) {name : String}
    {ds : List ComponentDefinition} (member : (name, ds) ∈ r.components) : OfType name ds := by
  induction filled generalizing ds with
  | empty => simp at member
  | group _ _ ih => exact ih member
  | @component r path text d warnings _ read ih =>
    rcases Ordered.memPut member with same | before
    · cases same
      have earlier : OfType d.typeName ((r.components.lookup d.typeName).getD []) := by
        cases found : r.components.lookup d.typeName with
        | none => exact ⟨List.nodup_nil, by simp, by simp⟩
        | some others => exact ih (Ordered.memOfLookup found)
      refine ⟨replaceOrAddDistinct earlier.files, ?_, ?_⟩
      · intro x inside
        rcases memReplaceOrAdd inside with rfl | old
        · rfl
        · exact earlier.named x old
      · intro x inside
        rcases memReplaceOrAdd inside with rfl | old
        · exact ⟨_, _, _, _, read⟩
        · exact earlier.read x old
    · exact ih before

theorem definitionRead {r : Registry} (filled : r.Filled) {d : ComponentDefinition}
    (member : d ∈ r.definitions) : d.isAnonymous = false ∧ d.Tidy ∧
      ∀ x ∈ d.nested, x = d ∨ (x.isAnonymous = true ∧ x.Tidy) := by
  obtain ⟨⟨name, ds⟩, entry, inside⟩ := List.mem_flatMap.mp member
  obtain ⟨_, _, _, _, read⟩ := (componentsOfType filled entry).read d inside
  exact Compilation.readComponentTidy read

theorem definitionUnique {r : Registry} (filled : r.Filled) {d e : ComponentDefinition}
    (left : d ∈ r.definitions) (right : e ∈ r.definitions) (same : d.key = e.key) : d = e := by
  obtain ⟨⟨name, ds⟩, entry, inside⟩ := List.mem_flatMap.mp left
  obtain ⟨⟨name', es⟩, entry', inside'⟩ := List.mem_flatMap.mp right
  obtain ⟨types, paths⟩ := Prod.mk.inj same
  have one := componentsOfType filled entry
  have names : name = name' := by
    rw [← one.named d inside, types, (componentsOfType filled entry').named e inside']
  subst names
  have found := Ordered.lookupOfMem (componentNamesDistinct filled) entry
  rw [Ordered.lookupOfMem (componentNamesDistinct filled) entry'] at found
  cases Option.some.inj found
  exact List.inj_on_of_nodup_map one.files inside inside' paths

theorem definitionIncluded {r : Registry} {d : ComponentDefinition} (member : d ∈ r.definitions) :
    d ∈ r.allDefinitions :=
  List.mem_flatMap.mpr ⟨d, member, d.nestedSelf⟩

theorem allDefinitionsTidy {r : Registry} (filled : r.Filled) {d : ComponentDefinition}
    (member : d ∈ r.allDefinitions) : d.Tidy := by
  obtain ⟨outer, registered, inside⟩ := List.mem_flatMap.mp member
  obtain ⟨_, tidy, within⟩ := definitionRead filled registered
  rcases within d inside with rfl | ⟨_, nested⟩
  · exact tidy
  · exact nested

theorem rootsUnlaid {r : Registry} (filled : r.Filled) {d : ComponentDefinition}
    (member : d ∈ r.allDefinitions) : d.root.layout = [] := by
  obtain ⟨outer, registered, inside⟩ := List.mem_flatMap.mp member
  obtain ⟨⟨name, ds⟩, entry, listed⟩ := List.mem_flatMap.mp registered
  obtain ⟨_, _, _, _, read⟩ := (componentsOfType filled entry).read outer listed
  exact Compilation.readComponentRoots read d inside

theorem namedRegistered {r : Registry} (filled : r.Filled) {d : ComponentDefinition}
    (member : d ∈ r.allDefinitions) (named : d.isAnonymous = false) : d ∈ r.definitions := by
  obtain ⟨outer, registered, inside⟩ := List.mem_flatMap.mp member
  obtain ⟨_, _, within⟩ := definitionRead filled registered
  rcases within d inside with rfl | ⟨anonymous, _⟩
  · exact registered
  · rw [anonymous] at named
    cases named

theorem inlineIncluded {r : Registry} {d inline : ComponentDefinition} {e : Element}
    (member : d ∈ r.allDefinitions) (element : e ∈ d.elements)
    (here : e.definition? = some inline) : inline ∈ r.allDefinitions := by
  obtain ⟨outer, registered, inside⟩ := List.mem_flatMap.mp member
  exact List.mem_flatMap.mpr ⟨outer, registered,
    ComponentDefinition.nestedTrans inside (ComponentDefinition.nestedAt element here)⟩

theorem visibleRegistered {r : Registry} {name : String} {d : ComponentDefinition}
    (found : (r.component? name).1 = some d) : d ∈ r.definitions := by
  unfold component? at found
  split at found
  · rename_i first second more known
    cases found
    exact List.mem_flatMap.mpr ⟨_, Ordered.memOfLookup known, List.mem_cons_self⟩
  · rename_i only known
    cases found
    exact List.mem_flatMap.mpr ⟨_, Ordered.memOfLookup known, List.mem_cons_self⟩
  · cases found

/- Registries of components that are given by their files and texts. -/
section Texts

def reading (file : String × String) : Result ComponentDefinition :=
  (Compilation.readComponent .iOS file.1 file.2).1

def ofText (file : String × String) : ComponentDefinition :=
  (reading file).toOption.getD
    (Element.define "" file.1 false (Element.bare (.widget .container) Element.rootId) [] {})

def ofTexts (application : Application) (files : List (String × String)) : Registry :=
  files.foldl (fun r file => r.addComponent (ofText file)) { platform := .iOS, application }

def readLetters (path : String) (cs : List Char) : Result ComponentDefinition :=
  match Markup.readLetters cs with
  | .error e => .error e
  | .ok node => ((ComponentDefinition.read node).outcome { platform := .iOS, path }).1

theorem readComponentLetters {text : String} {cs : List Char} (letters : text = String.ofList cs)
    (path : String) : (Compilation.readComponent .iOS path text).1 = readLetters path cs := by
  rw [Compilation.readComponent, Markup.parseLetters letters, readLetters]
  cases Markup.readLetters cs <;> rfl

theorem readingLetters {file : String × String} {cs : List Char}
    (letters : file.2 = String.ofList cs) : reading file = readLetters file.1 cs := by
  rw [reading, readComponentLetters letters]

theorem readingsLetters (files : List (String × String)) {css : List (List Char)}
    (letters : List.Forall₂ (fun file cs => file.2 = String.ofList cs) files css) :
    List.Forall₂ (fun file cs => reading file = readLetters file.1 cs) files css :=
  letters.imp fun _ _ => readingLetters

theorem ofTextsFilled (application : Application) {files : List (String × String)}
    (readable : (files.all fun file => (reading file).isOk) = true) :
    (ofTexts application files).Filled := by
  have each : ∀ {r : Registry}, r.platform = .iOS → r.Filled →
      (files.foldl (fun r file => r.addComponent (ofText file)) r).Filled := by
    induction files with
    | nil => exact fun _ filled => filled
    | cons file rest ih =>
      intro r platform filled
      obtain ⟨here, later⟩ := (Bool.and_eq_true _ _).mp (List.all_cons ▸ readable)
      have read : Compilation.readComponent r.platform file.1 file.2 =
          (.ok (ofText file), (Compilation.readComponent r.platform file.1 file.2).2) := by
        refine Prod.ext ?_ rfl
        rw [platform]
        exact Result.okGetD here _
      exact ih later platform (.component filled read)
  exact each rfl (.empty .iOS application)

theorem lastRegistered (application : Application) (files : List (String × String))
    (file : String × String) :
    ofText file ∈ (ofTexts application (files ++ [file])).definitions := by
  rw [ofTexts, List.foldl_append]
  exact addedRegistered _ _

end Texts

end Registry
end ViewForge
