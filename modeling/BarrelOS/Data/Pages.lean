import BarrelOS.Data.Words
import Mathlib.Data.Set.Insert

namespace BarrelOS.Data

/-! Pages of a memory that hold words under names -/

/-- The page with a name, and how many of its words are in use. -/
structure Layout (Name : Type) where
  page : Name → Nat
  size : Name → Nat

namespace Layout

variable {Name : Type} {layout : Layout Name} {live more : Set Name} {name : Name} {word other : Name → Nat → Nat}
  {memory after : Bytes} {place i value : Nat}

def address (layout : Layout Name) (name : Name) (i : Nat) : Nat := layout.page name * 4096 + 4 * i

/-- A place in one of the words in use. -/
def Covers (layout : Layout Name) (name : Name) (place : Nat) : Prop :=
  layout.page name * 4096 ≤ place ∧ place < layout.page name * 4096 + 4 * layout.size name

/-- No two names share a page, and all pages are in memory. -/
structure Apart (layout : Layout Name) (live : Set Name) : Prop where
  distinct : live.InjOn layout.page
  inside : ∀ name ∈ live, layout.page name < 2 ^ 20
  fits : ∀ name ∈ live, layout.size name ≤ 1024

def Holds (layout : Layout Name) (live : Set Name) (word : Name → Nat → Nat) (memory : Bytes) : Prop :=
  ∀ name ∈ live, ∀ i < layout.size name, memory.load32 (layout.address name i) = word name i % 2 ^ 32

theorem Apart.mono (apart : layout.Apart live) (fewer : more ⊆ live) : layout.Apart more :=
  ⟨fun _ left _ right => apart.distinct (fewer left) (fewer right), fun name member => apart.inside name (fewer member),
    fun name member => apart.fits name (fewer member)⟩

theorem store_elsewhere (apart : layout.Apart live) (member : name ∈ live) (inside : i < layout.size name)
    (outside : ¬ layout.Covers name place) : (memory.store (layout.address name i) (wordBytes value)) place = memory place := by
  have page := apart.inside name member
  have fits := apart.fits name member
  refine Bytes.store_outside fun byte low here => outside ?_
  have low : byte < 4 := low
  unfold address at here
  unfold Covers
  omega

namespace Holds

theorem mono (holds : layout.Holds live word memory) (fewer : more ⊆ live) : layout.Holds more word memory :=
  fun name member => holds name (fewer member)

theorem congr (holds : layout.Holds live word memory)
    (same : ∀ name ∈ live, ∀ i < layout.size name, other name i = word name i) : layout.Holds live other memory := by
  intro name member i inside
  rw [same name member i inside]
  exact holds name member i inside

/-- Only the words in use count. -/
theorem outside (holds : layout.Holds live word memory) (apart : layout.Apart live)
    (same : ∀ name ∈ live, ∀ place, layout.Covers name place → after place = memory place) : layout.Holds live word after := by
  intro name member i inside
  have page := apart.inside name member
  have fits := apart.fits name member
  rw [← holds name member i inside]
  refine Bytes.load32_congr fun byte low => same name member _ ?_
  unfold address Covers
  omega

/-- A page that no other name has can be read under any name for it. -/
theorem adopt [DecidableEq Name] (holds : layout.Holds live word memory) :
    layout.Holds (insert name live) (Function.update word name fun i => memory.load32 (layout.address name i)) memory := by
  intro second also i inside
  by_cases here : second = name
  · rw [here, Function.update_self, Nat.mod_eq_of_lt Bytes.load32_lt]
  · rw [Function.update_of_ne here]
    exact holds second (also.resolve_left here) i inside

/-- A word is written under its name. -/
theorem write [DecidableEq Name] (holds : layout.Holds live word memory) (apart : layout.Apart live) (member : name ∈ live)
    (inside : i < layout.size name) :
    layout.Holds live (Function.update word name (Function.update (word name) i value))
      (memory.store (layout.address name i) (wordBytes value)) := by
  intro second also j within
  have page := apart.inside name member
  have fits := apart.fits name member
  have pageToo := apart.inside second also
  have fitsToo := apart.fits second also
  by_cases here : second = name ∧ j = i
  · obtain ⟨rfl, rfl⟩ := here
    rw [Function.update_self, Function.update_self]
    exact Bytes.holds_word.mp (Bytes.store_holds (by change 4 ≤ _; decide))
  · have kept : Function.update word name (Function.update (word name) i value) second j = word second j := by
      by_cases same : second = name
      · subst same
        rw [Function.update_self, Function.update_of_ne fun index => here ⟨rfl, index⟩]
      · rw [Function.update_of_ne same]
    rw [kept, ← holds second also j within]
    refine Bytes.load32_congr fun byte low => Bytes.store_outside fun other below same => here ?_
    have below : other < 4 := below
    have pages : layout.page second = layout.page name := by
      unfold address at same
      omega
    have names := apart.distinct also member pages
    refine ⟨names, ?_⟩
    unfold address at same
    omega

end Holds

/-- Words find a memory that holds them. -/
theorem exists_holds (apart : layout.Apart live) (word : Name → Nat → Nat) : ∃ memory, layout.Holds live word memory := by
  classical
  refine ⟨fun place => if used : ∃ name ∈ live, layout.page name = place / 4096 then
    ((wordBytes (word used.choose (place % 4096 / 4)))[place % 4]?).getD 0 else 0, fun name member i inside => ?_⟩
  have page := apart.inside name member
  have fits := apart.fits name member
  refine Bytes.holds_word.mp fun byte value found => ?_
  have low : byte < 4 := (List.getElem?_eq_some_iff.mp found).1
  have here : (layout.address name i + byte) % 2 ^ 32 = layout.page name * 4096 + (4 * i + byte) := by
    unfold address
    omega
  have there : (layout.page name * 4096 + (4 * i + byte)) / 4096 = layout.page name := by omega
  have used : ∃ second ∈ live, layout.page second = (layout.page name * 4096 + (4 * i + byte)) / 4096 := ⟨name, member, there.symm⟩
  have chosen : used.choose = name :=
    apart.distinct used.choose_spec.1 member (used.choose_spec.2.trans there)
  have index : (layout.page name * 4096 + (4 * i + byte)) % 4096 / 4 = i := by omega
  have rest : (layout.page name * 4096 + (4 * i + byte)) % 4 = byte := by omega
  rw [here]
  simp only [dif_pos used, chosen, index, rest, found, Option.getD_some]

end Layout

end BarrelOS.Data
