import Mathlib.Logic.Basic

namespace BarrelOS.Data

/-! Items that are served one after another, each from what those in front of it have left -/

variable {Item Supply Out : Type} {serve : Item → Supply → Supply → List Out → Prop} {item : Item}
  {first second items : List Item} {supply left : Supply} {out text : List Out}

inductive Served (serve : Item → Supply → Supply → List Out → Prop) : List Item → Supply → Supply → List Out → Prop
  | nil {supply : Supply} : Served serve [] supply supply []
  | cons {item : Item} {rest : List Item} {supply middle left : Supply} {text later : List Out}
      (here : serve item supply middle text) (behind : Served serve rest middle left later) :
      Served serve (item :: rest) supply left (text ++ later)

namespace Served

theorem single (here : serve item supply left out) : Served serve [item] supply left out := by
  have served : Served serve [item] supply left (out ++ []) := .cons here .nil
  rwa [List.append_nil] at served

theorem append {middle : Supply} (earlier : Served serve first supply middle out) (later : Served serve second middle left text) :
    Served serve (first ++ second) supply left (out ++ text) := by
  induction earlier with
  | nil => exact later
  | cons here _ ih =>
      rw [List.append_assoc]
      exact .cons here (ih later)

theorem split (served : Served serve (first ++ second) supply left out) :
    ∃ middle head tail, Served serve first supply middle head ∧ Served serve second middle left tail ∧ out = head ++ tail := by
  induction first generalizing supply out with
  | nil => exact ⟨supply, [], out, .nil, served, rfl⟩
  | cons item first ih =>
      cases served with
      | cons here behind =>
          obtain ⟨middle, head, tail, earlier, later, same⟩ := ih behind
          refine ⟨middle, _, tail, .cons here earlier, later, ?_⟩
          rw [same, List.append_assoc]

/-- Two ways to serve the same items go along with each other as their steps do. -/
theorem transfer {Other : Type} {along : Item → Supply → Supply → List Other → Prop} (Allowed : Item → Prop)
    (Fits : List Out → List Other → Prop) (none : Fits [] [])
    (join : ∀ {text more out rest}, Fits text out → Fits more rest → Fits (text ++ more) (out ++ rest))
    (step : ∀ {item supply left text}, Allowed item → serve item supply left text → ∃ out, along item supply left out ∧ Fits text out)
    (allowed : ∀ item ∈ items, Allowed item) (served : Served serve items supply left text) :
    ∃ out, Served along items supply left out ∧ Fits text out := by
  induction served with
  | nil => exact ⟨[], .nil, none⟩
  | cons here _ ih =>
      obtain ⟨first, others⟩ := List.forall_mem_cons.mp allowed
      obtain ⟨out, head, fits⟩ := step first here
      obtain ⟨rest, tail, more⟩ := ih others
      exact ⟨out ++ rest, .cons head tail, join fits more⟩

end Served

end BarrelOS.Data
