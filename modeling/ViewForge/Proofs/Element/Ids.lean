import Mathlib.Data.List.Perm.Subperm
import ViewForge.Proofs.Element.Reader

/-! Ids within a component. Every component claims ids in a scope of its own, where no id is claimed
twice; an id is generated by counting up to the first number that is free there. -/
namespace ViewForge
open Markup (Node)

namespace Element

theorem numberedUnique (base : String) {m n : Nat} (same : base ++ toString m = base ++ toString n) :
    m = n := by
  have letters := congrArg String.toList same
  rw [String.toList_append, String.toList_append] at letters
  have digits := congrArg (fun cs => Nat.ofDigitChars 10 cs 0) (List.append_cancel_left letters)
  simpa [Nat.toString_eq_ofList_toDigits] using digits

structure FirstFree (base : String) (taken : List String) (last n : Nat) : Prop where
  after : last < n
  free : base ++ toString n ∉ taken
  between : ∀ m, last < m → m < n → base ++ toString m ∈ taken

/- As many numbers in a row as there are attempts can be taken, and no others have been passed. -/
theorem freeNumberPasses (base : String) (taken : List String) (last attempts : Nat) :
    last < freeNumber base taken last attempts ∧
      (∀ m, last < m → m < freeNumber base taken last attempts → base ++ toString m ∈ taken) ∧
      (base ++ toString (freeNumber base taken last attempts) ∈ taken →
        freeNumber base taken last attempts = last + attempts + 1) := by
  induction attempts generalizing last with
  | zero =>
    rw [freeNumber]
    exact ⟨Nat.lt_succ_self last, fun m low high => absurd high (by omega), fun _ => rfl⟩
  | succ attempts ih =>
    rw [freeNumber]
    split
    · rename_i occupied
      obtain ⟨after, between, full⟩ := ih (last + 1)
      refine ⟨by omega, ?_, fun present => by have := full present; omega⟩
      intro m low high
      rcases Nat.lt_or_ge (last + 1) m with later | first
      · exact between m later high
      · rw [show m = last + 1 by omega]
        exact List.contains_iff_mem.mp occupied
    · rename_i vacant
      refine ⟨Nat.lt_succ_self last, fun m low high => absurd high (by omega), fun present => ?_⟩
      exact absurd (List.contains_iff_mem.mpr present) vacant

/- More numbers than there are ids cannot all be taken: their ids differ. -/
theorem takenShort (base : String) {taken : List String} {last n : Nat}
    (taking : ∀ m, last < m → m ≤ n → base ++ toString m ∈ taken) : n - last ≤ taken.length := by
  have distinct :
      ((List.range (n - last)).map fun i => base ++ toString (last + 1 + i)).Nodup := by
    refine List.nodup_range.map ?_
    intro i j same
    have equal := numberedUnique base same
    omega
  have within :
      ((List.range (n - last)).map fun i => base ++ toString (last + 1 + i)) ⊆ taken := by
    intro id member
    obtain ⟨i, bound, rfl⟩ := List.mem_map.mp member
    have small := List.mem_range.mp bound
    exact taking (last + 1 + i) (by omega) (by omega)
  simpa using (List.subperm_of_subset distinct within).length_le

theorem freeNumberFirst (base : String) (taken : List String) (last : Nat) :
    FirstFree base taken last (freeNumber base taken last taken.length) := by
  obtain ⟨after, between, full⟩ := freeNumberPasses base taken last taken.length
  refine ⟨after, fun present => ?_, between⟩
  have last' := full present
  have short : freeNumber base taken last taken.length - last ≤ taken.length := by
    refine takenShort base fun m low high => ?_
    rcases Nat.lt_or_eq_of_le high with inside | rfl
    · exact between m low inside
    · exact present
  omega

theorem freeNumberBound (base : String) (taken : List String) (last : Nat) :
    freeNumber base taken last taken.length ≤ last + taken.length + 1 := by
  have first := freeNumberFirst base taken last
  have after := first.after
  have short : freeNumber base taken last taken.length - 1 - last ≤ taken.length := by
    refine takenShort base fun m low high => first.between m low ?_
    omega
  omega

theorem claimFree {id : String} {s : ReadState} (free : id ∉ s.claimed) :
    ∃ t, (claim id).outcome s = (.ok (), t) := by
  unfold claim
  rw [Task.getBind]
  cases inside : s.scopes with
  | nil => exact ⟨s, rfl⟩
  | cons scope outer =>
    have vacant : scope.ids.contains id = false := by
      rw [ReadState.claimed, inside] at free
      simpa using free
    simp only [vacant]
    exact ⟨_, rfl⟩

/- A search for an id cannot fail, and neither can claiming what it finds. -/
theorem readIdFree (tag : String) (s : ReadState) :
    ∃ n t, FirstFree (idBase tag) s.claimed (s.count tag) n ∧
      n ≤ s.count tag + s.claimed.length + 1 ∧
      (readId tag none).outcome s = (.ok ⟨idBase tag ++ toString n, false⟩, t) := by
  have first := freeNumberFirst (idBase tag) s.claimed (s.count tag)
  have free : idBase tag ++ toString (freeNumber (idBase tag) s.claimed (s.count tag)
      s.claimed.length) ∉ (s.setCount tag (freeNumber (idBase tag) s.claimed (s.count tag)
      s.claimed.length)).claimed := first.free
  obtain ⟨t, claimed⟩ := claimFree free
  refine ⟨_, t, first, freeNumberBound _ _ _, ?_⟩
  exact Task.bindGives.mpr ⟨_, _, rfl, Task.bindGives.mpr ⟨(), t, claimed, rfl⟩⟩

end Element

namespace ComponentDefinition

theorem idsDistinct {node : Node} {d : ComponentDefinition} {s t : ReadState}
    (ok : (read node).outcome s = (.ok d, t)) :
    (∀ x ∈ d.nested, x.root.id = Element.rootId ∧ (x.elements.map (·.id.name)).Nodup) ∧
    ∀ tag u, ∃ n v,
      Element.FirstFree (Element.idBase tag) u.claimed (u.count tag) n ∧
        n ≤ u.count tag + u.claimed.length + 1 ∧
        (Element.readId tag none).outcome u = (.ok ⟨Element.idBase tag ++ toString n, false⟩, v) :=
  ⟨readIds ok, Element.readIdFree⟩

/- Two tags with one base, and an id of the outer component used again in the inner one. -/
def crowded : Node where
  name := "Card"
  children := [
    ⟨"Label", [], [], ""⟩, ⟨"label", [], [], ""⟩, ⟨"Label", [("id", "label3")], [], ""⟩,
    ⟨"Badge", [], [⟨"Label", [], [], ""⟩, ⟨"View", [("id", "label1")], [], ""⟩], ""⟩,
    ⟨"Label", [], [], ""⟩]

def crowdedRead : Result ComponentDefinition × ReadState :=
  (read crowded).outcome { platform := .iOS, path := "Card.ui.xml" }

def crowdedScope : ReadState where
  platform := .iOS
  path := "Card.ui.xml"
  counters := [("Label", 2), ("Badge", 1), ("label", 2)]
  scopes := [⟨"Card", ["badge1", "label3", "label2", "label1"]⟩]

theorem crowdedIds :
    ∃ d t, crowdedRead = (.ok d, t) ∧
      d.nested.map (fun x => x.elements.map (·.id.name)) =
        [["self", "label1", "label2", "label3", "badge1", "label4"], ["self", "label2", "label1"]] ∧
      (∀ x ∈ d.nested, x.root.id = Element.rootId ∧ (x.elements.map (·.id.name)).Nodup) ∧
      ∃ n v, Element.FirstFree "label" crowdedScope.claimed 2 n ∧ n ≤ 7 ∧
        (Element.readId "Label" none).outcome crowdedScope =
          (.ok ⟨"label" ++ toString n, false⟩, v) := by
  obtain ⟨d, t, ok⟩ : ∃ d t, crowdedRead = (.ok d, t) := Result.okGives (by decide +kernel)
  have names : crowdedRead.1.map (fun d => d.nested.map fun x => x.elements.map (·.id.name)) =
      .ok [["self", "label1", "label2", "label3", "badge1", "label4"],
        ["self", "label2", "label1"]] := by decide +kernel
  have base : Element.idBase "Label" = "label" := by decide +kernel
  obtain ⟨distinct, search⟩ := idsDistinct ok
  have found := search "Label" crowdedScope
  rw [ok] at names
  rw [base] at found
  exact ⟨d, t, ok, Except.ok.inj names, distinct, found⟩

end ComponentDefinition

end ViewForge
