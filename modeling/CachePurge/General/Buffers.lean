import Mathlib.Data.List.Basic

/-! A buffer of fixed size. A write past its end is cut off there. A list is written
entry by entry as long as a margin is left; where the margin covers the widest entry and
what must follow, every entry is whole and what follows fits, whatever the list. -/
namespace CachePurge.General
variable {α ι : Type}

def put (size : Nat) (written text : List α) : List α := written ++ text.take (size - written.length)

theorem putWhole {size : Nat} {written text : List α} (fits : written.length + text.length ≤ size) :
    put size written text = written ++ text := by
  rw [put,List.take_of_length_le (by omega)]

/- The loop with its margin; an entry may depend on whether it is the first. -/
def fill (size margin : Nat) (entry : Bool → ι → List α) : Bool → List ι → List α → List α × Bool
  | _, [], written => (written,true)
  | first, i :: rest, written =>
    if size - written.length < margin then (written,false)
    else fill size margin entry false rest (put size written (entry first i))

def listing (entry : Bool → ι → List α) : Bool → List ι → List α
  | _, [] => []
  | first, i :: rest => entry first i ++ listing entry false rest

theorem fillWhole {size margin tail : Nat} {entry : Bool → ι → List α}
    (covered : ∀ first i, (entry first i).length + tail ≤ margin) (first : Bool) (items : List ι) {written : List α}
    (room : written.length + tail ≤ size) : ∃ listed rest, items = listed ++ rest ∧
      fill size margin entry first items written = (written ++ listing entry first listed,decide (rest = [])) ∧
      (written ++ listing entry first listed).length + tail ≤ size := by
  induction items generalizing first written with
  | nil =>
    refine ⟨[],[],rfl,?_,?_⟩
    · simp [fill,listing]
    · simpa [listing] using room
  | cons i items ih =>
    rw [fill]
    split
    · refine ⟨[],i :: items,rfl,?_,?_⟩
      · simp [listing]
      · simpa [listing] using room
    · have wide := covered first i
      have whole : put size written (entry first i) = written ++ entry first i := putWhole (by omega)
      have left : (written ++ entry first i).length + tail ≤ size := by
        rw [List.length_append]
        omega
      obtain ⟨listed,rest,split_,filled,fits⟩ := ih false left
      refine ⟨i :: listed,rest,by rw [split_,List.cons_append],?_,?_⟩
      · rw [whole,filled,listing,List.append_assoc]
      · rw [listing,← List.append_assoc]
        exact fits

end CachePurge.General
