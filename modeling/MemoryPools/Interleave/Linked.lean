import Mathlib.Data.List.Basic
import Mathlib.Logic.Function.Basic

/-!
# Null-terminated chains

`Linked next head l`: following `next` from `head` visits the cells of `l` in
order and then ends. A chain is determined by its head, so it never repeats a
cell; it depends on `next` only at its own cells.
-/

namespace Interleave

variable {α : Type}

def Linked (next : α → Option α) : Option α → List α → Prop
  | head, [] => head = none
  | head, p :: l => head = some p ∧ Linked next (next p) l

/-- `p` is met when `next` is followed from `head` to the end. -/
def OnChain (next : α → Option α) (head : Option α) (p : α) : Prop :=
  ∃ l, Linked next head l ∧ p ∈ l

variable {next next' : α → Option α} {head : Option α}

@[simp] theorem linked_nil : Linked next head [] ↔ head = none := Iff.rfl

@[simp] theorem linked_cons {p : α} {l : List α} :
    Linked next head (p :: l) ↔ head = some p ∧ Linked next (next p) l := Iff.rfl

namespace Linked

variable {l l' a b m : List α} {p : α}

theorem head_eq (h : Linked next head l) : head = l.head? := by
  cases l with
  | nil => exact h
  | cons p l => exact h.1

theorem unique (h : Linked next head l) (h' : Linked next head l') : l = l' := by
  induction l generalizing head l' with
  | nil =>
    cases l' with
    | nil => rfl
    | cons p l' => exact absurd (h.symm.trans h'.1) (by simp)
  | cons p l ih =>
    cases l' with
    | nil => exact absurd (h'.symm.trans h.1) (by simp)
    | cons q l' =>
      have e : p = q := Option.some.inj (h.1.symm.trans h'.1)
      subst e
      rw [ih h.2 h'.2]

theorem congr (hn : ∀ p ∈ l, next' p = next p) (h : Linked next head l) :
    Linked next' head l := by
  induction l generalizing head with
  | nil => exact h
  | cons p l ih =>
    refine ⟨h.1, ?_⟩
    rw [hn p (by simp)]
    apply ih (fun q hq => hn q (by simp [hq])) h.2

/-- A chain does not depend on the link of a cell that it does not meet. -/
theorem update [DecidableEq α] {x : Option α} (h : Linked next head l) (hp : p ∉ l) :
    Linked (Function.update next p x) head l := by
  apply h.congr
  rintro q hq
  apply Function.update_of_ne
  rintro rfl
  exact hp hq

theorem push [DecidableEq α] (h : Linked next head l) (hp : p ∉ l) :
    Linked (Function.update next p head) (some p) (p :: l) := by
  refine ⟨rfl, ?_⟩
  rw [Function.update_self]
  exact h.update hp

theorem drop (h : Linked next head (a ++ b)) : ∃ m, Linked next m b := by
  induction a generalizing head with
  | nil => exact ⟨head, h⟩
  | cons p a ih => exact ih h.2

theorem behind (h : Linked next head (a ++ p :: b)) : Linked next (next p) b := by
  obtain ⟨m, hm⟩ := drop h
  exact hm.2

/-- A chain that met a cell twice would never end. -/
theorem nodup (h : Linked next head l) : l.Nodup := by
  induction l generalizing head with
  | nil => exact List.nodup_nil
  | cons p l ih =>
    apply List.nodup_cons.mpr
    refine ⟨fun hp => ?_, ih h.2⟩
    obtain ⟨a, b, rfl⟩ := List.append_of_mem hp
    have e := unique h.2 (behind h.2)
    have := congrArg List.length e
    simp at this
    omega

/-- A chain whose last cell is made to point to the head of another one. -/
theorem splice (h : Linked next head (l ++ [p])) (hn : ∀ q ∈ l, next' q = next q)
    (hm : Linked next' (next' p) m) : Linked next' head (l ++ p :: m) := by
  induction l generalizing head with
  | nil => exact ⟨h.1, hm⟩
  | cons q l ih =>
    refine ⟨h.1, ?_⟩
    rw [hn q (by simp)]
    apply ih h.2 (fun r hr => hn r (by simp [hr]))

/-- Two chains are joined by writing the last link of the first one. -/
theorem join [DecidableEq α] {full : Option α} {p : α} (h : Linked next head l)
    (hlast : l.getLast? = some p) (hm : Linked next full m) (hapart : ∀ q ∈ l, q ∉ m) :
    Linked (Function.update next p full) head (l ++ m) ∧
      Linked (Function.update next p full) full m := by
  obtain ⟨pre, rfl⟩ := List.getLast?_eq_some_iff.mp hlast
  have hpre : ∀ q ∈ pre, q ≠ p := by
    rintro q hq rfl
    exact (List.nodup_append.mp h.nodup).2.2 q hq q (by simp) rfl
  have hm' : Linked (Function.update next p full) full m := hm.update (hapart p (by simp))
  refine ⟨?_, hm'⟩
  rw [List.append_assoc]
  apply h.splice
  · intro q hq
    exact Function.update_of_ne (hpre q hq) _ _
  · rw [Function.update_self]
    exact hm'

/-- When a link skips the cell behind it, a chain loses at most that cell. -/
theorem skip [DecidableEq α] {c v : α} (h : Linked next head l) (hc : next c = some v) :
    ∃ l', Linked (Function.update next c (next v)) head l' ∧ l' ⊆ l := by
  induction l generalizing head with
  | nil => exact ⟨[], h, List.Subset.refl _⟩
  | cons p l ih =>
    by_cases hp : p = c
    · subst hp
      have hnodup := h.nodup
      obtain ⟨rfl, h⟩ := h
      cases l with
      | nil => exact absurd (h.symm.trans hc) (by simp)
      | cons w l =>
        obtain ⟨hw, hl⟩ := h
        obtain rfl : w = v := Option.some.inj (hw.symm.trans hc)
        have hnot : p ∉ l := fun hp =>
          (List.nodup_cons.mp hnodup).1 (List.mem_cons_of_mem _ hp)
        refine ⟨p :: l, ⟨rfl, ?_⟩, fun q hq => ?_⟩
        · rw [Function.update_self]
          exact hl.update hnot
        · rcases List.mem_cons.mp hq with rfl | hq
          · exact List.mem_cons_self
          · exact List.mem_cons_of_mem _ (List.mem_cons_of_mem _ hq)
    · obtain ⟨l', hl', hsub⟩ := ih h.2
      refine ⟨p :: l', ⟨h.1, ?_⟩, List.cons_subset_cons p hsub⟩
      rwa [Function.update_of_ne hp]

end Linked

/-- The cells of a first part are linked already: each of them to the one behind it. -/
def LinkedUpTo (next : α → Option α) : List α → List α → Prop
  | [], _ => True
  | p :: l, rest => next p = (l ++ rest).head? ∧ LinkedUpTo next l rest

namespace LinkedUpTo

variable {l rest : List α} {p : α}

theorem congr (hn : ∀ p ∈ l, next' p = next p) (h : LinkedUpTo next l rest) :
    LinkedUpTo next' l rest := by
  induction l with
  | nil => trivial
  | cons p l ih => exact ⟨(hn p (by simp)).trans h.1, ih (fun q hq => hn q (by simp [hq])) h.2⟩

theorem write [DecidableEq α] (hp : p ∉ l) (h : LinkedUpTo next l (p :: rest)) :
    LinkedUpTo (Function.update next p rest.head?) (l ++ [p]) rest := by
  induction l with
  | nil => exact ⟨Function.update_self .., trivial⟩
  | cons q l ih =>
    have hq : q ≠ p := fun e => hp (by simp [e])
    refine ⟨?_, ih (fun hm => hp (by simp [hm])) h.2⟩
    rw [Function.update_of_ne hq, h.1]
    simp

theorem linked (h : LinkedUpTo next l []) : Linked next l.head? l := by
  induction l with
  | nil => rfl
  | cons p l ih =>
    refine ⟨rfl, ?_⟩
    rw [h.1, List.append_nil]
    exact ih h.2

end LinkedUpTo

/-! ## Walks that edit the link they came through

A walk keeps a reference to the link it came through: `none` is the head,
`some c` the link of the cell `c`. -/

def readLink (next : α → Option α) (head : Option α) : Option α → Option α
  | none => head
  | some c => next c

theorem Linked.readLink {pre rest : List α} (h : Linked next head (pre ++ rest)) :
    Interleave.readLink next head pre.getLast? = rest.head? := by
  induction pre generalizing head with
  | nil => exact h.head_eq
  | cons c pre ih =>
    cases pre with
    | nil => exact h.2.head_eq
    | cons d pre =>
      have ih' := ih h.2
      rw [List.getLast?_cons_cons]
      cases hg : (d :: pre).getLast? with
      | none => simp at hg
      | some e => rwa [hg] at ih'

/-- The link that a walk came through is made to point to the chain of `l`. -/
theorem Linked.relink [DecidableEq α] {l : List α} {c : α} (h : Linked next head l)
    (start : Option α) (hc : c ∉ l) : Linked (Function.update next c head)
      (Interleave.readLink (Function.update next c head) start (some c)) l := by
  show Linked _ (Function.update next c head c) l
  rw [Function.update_self]
  exact h.update hc

/-- Writing the link before `v` with the link of `v` takes `v` out. -/
theorem Linked.unlink {v c : α} {pre rest : List α} (h : Linked next head (pre ++ v :: rest))
    (hc : pre.getLast? = some c) (hv : next' c = next v) (hn : ∀ q, q ≠ c → next' q = next q) :
    Linked next' head (pre ++ rest) := by
  induction pre generalizing head with
  | nil => cases hc
  | cons d pre ih =>
    have hd := h.nodup
    cases pre with
    | nil =>
      obtain rfl : d = c := by simpa using hc
      refine ⟨h.1, ?_⟩
      show Linked next' (next' d) rest
      rw [hv]
      apply h.2.2.congr
      intro q hq
      apply hn q
      rintro rfl
      simp [hq] at hd
    | cons e pre =>
      rw [List.getLast?_cons_cons] at hc
      have hne : d ≠ c := by
        rintro rfl
        have : d ∈ e :: pre := List.mem_of_getLast? hc
        simp only [List.cons_append, List.nodup_cons, List.mem_cons, List.mem_append] at hd this
        exact hd.1 (by rcases this with h | h <;> simp [h])
      refine ⟨h.1, ?_⟩
      rw [hn d hne]
      apply ih h.2 hc

/-- A walk that stands at the link between the cells of `pre` and those of `rest`. -/
structure Walk (next : α → Option α) (head current : Option α) (pre rest : List α) : Prop where
  chain : Linked next head (pre ++ rest)
  current : current = pre.getLast?

namespace Walk

variable {current : Option α} {pre rest l : List α} {v c : α}

theorem start (h : Linked next head l) : Walk next head none [] l := ⟨h, rfl⟩

theorem read (h : Walk next head current pre rest) : readLink next head current = rest.head? := by
  rw [h.current]
  exact h.chain.readLink

/-- The cells of `rest` are what is met from where the walk stands. -/
theorem ahead (h : Walk next head current pre rest) :
    Linked next (Interleave.readLink next head current) rest := by
  obtain ⟨m, hm⟩ := h.chain.drop
  rw [h.read, ← hm.head_eq]
  exact hm

theorem advance (h : Walk next head current pre (v :: rest)) :
    Walk next head (some v) (pre ++ [v]) rest :=
  ⟨by simpa using h.chain, by simp⟩

theorem unlink_head (h : Walk next head none pre (v :: rest)) :
    Walk next (next v) none pre rest := by
  obtain rfl : pre = [] := by simpa using h.current.symm
  exact ⟨h.chain.2, rfl⟩

theorem unlink [DecidableEq α] (h : Walk next head (some c) pre (v :: rest)) :
    c ∈ pre ∧ Walk (Function.update next c (next v)) head (some c) pre rest := by
  refine ⟨List.mem_of_getLast? h.current.symm, ?_, h.current⟩
  exact h.chain.unlink h.current.symm (Function.update_self ..) fun q hq =>
    Function.update_of_ne hq _ _

theorem congr (hn : ∀ p ∈ pre ++ rest, next' p = next p) (h : Walk next head current pre rest) :
    Walk next' head current pre rest := ⟨h.chain.congr hn, h.current⟩

end Walk

theorem OnChain.iff_mem {l : List α} (h : Linked next head l) {p : α} :
    OnChain next head p ↔ p ∈ l := by
  refine ⟨?_, fun hp => ⟨l, h, hp⟩⟩
  rintro ⟨l', h', hp⟩
  rwa [h.unique h']

end Interleave
