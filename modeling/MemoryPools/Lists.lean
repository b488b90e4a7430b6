import MemoryPools.Page.Ops
import MemoryPools.Interleave.Circulation

/-!
# A push among the moves of the pages

A dropping thread that raised `in_free_list` carries the page until its
`compare_exchange` puts it on the pending list.
-/

namespace MemoryPools

open Interleave

variable {ω ρ : Type}

def PushPc.cargo (p : Addr) (pc : PushPc) : List Addr := if pc.inTransit then [p] else []

def DropPc.cargo (p : Addr) : DropPc → List Addr
  | .push pc => pc.cargo p
  | _ => []

theorem DropPc.nodup_cargo (p : Addr) (pc : DropPc) : (pc.cargo p).Nodup := by
  cases pc with
  | fetchAdd | deallocate => exact List.nodup_nil
  | push pc => simp only [cargo, PushPc.cargo]; split <;> simp

structure Drops (nextFree : Addr → Ptr) (place : Addr → Place ω ρ) (w : ω) (p : Addr)
    (pc : DropPc) : Prop where
  cargo : Carries place w (pc.cargo p)
  stored : ∀ current, pc = .push (.casPending current) → nextFree p = current

def DropsAfter (nextFree : Addr → Ptr) (place : Addr → Place ω ρ) (w : ω) (p : Addr) :
    Control DropPc Unit → Prop
  | .goto pc => Drops nextFree place w p pc
  | _ => Carries place w []

/-- Two finite lists without a page in common or twice, whose pages have the flag. -/
def ListShape (nextFree : Addr → Ptr) (inFreeList : Addr → Bool) (free pending : Ptr) : Prop :=
  ∃ F P, Linked nextFree free F ∧ Linked nextFree pending P ∧
    (F ++ P).Nodup ∧ ∀ p ∈ F ++ P, inFreeList p = true

variable {nextFree nextFree' : Addr → Ptr} {inFreeList : Addr → Bool} {free pending pending' : Ptr}
  {place place' : Addr → Place ω ρ} {w v : ω} {p : Addr} {links links' : PageLinks}

theorem Drops.frame {pc : DropPc} (h : Drops nextFree place v p pc) (hf : Frame w place place')
    (hv : v ≠ w) (hn : ∀ q, place q = .held v → nextFree' q = nextFree q) :
    Drops nextFree' place' v p pc := by
  refine ⟨hf.carries hv h.cargo, fun current e => ?_⟩
  subst e
  rw [hn p (Carries.single h.cargo)]
  exact h.stored _ rfl

theorem listShape_of_circulates (h : Circulates nextFree inFreeList free pending place) :
    ListShape nextFree inFreeList free pending := by
  obtain ⟨F, hF, hf⟩ := h.free
  obtain ⟨P, hP, hp⟩ := h.pending
  refine ⟨F, P, hF, hP, List.nodup_append.mpr ⟨hF.nodup, hP.nodup, fun p hpF q hqP e => ?_⟩,
    fun p hmem => ?_⟩
  · have h1 := (hf p).mp hpF
    rw [e, (hp q).mp hqP] at h1; cases h1
  · by_contra hne
    have hout := (h.out p).mp (by simpa using hne)
    rcases List.mem_append.mp hmem with hmem | hmem
    · rw [(hf p).mp hmem] at hout; cases hout
    · rw [(hp p).mp hmem] at hout; cases hout

theorem PageLinks.next_push {pc : PushPc} {upgraded : Bool} {control : Control PushPc Unit}
    (h : links.push p upgraded pending pc = (links', pending', control)) :
    links'.next = links.next := by
  cases pc with
  | casPending current =>
    simp only [PageLinks.push] at h
    split at h <;> · obtain ⟨rfl, -⟩ := Prod.mk.inj h; rfl
  | loadInFree | swapInFree | upgrade | loadPending | storeNextFree =>
    obtain ⟨rfl, -⟩ := Prod.mk.inj h; rfl

theorem push_links {p : Addr} {upgraded : Bool} {links links' : PageLinks} {pending pending' : Ptr}
    {pc : PushPc} {control : Control PushPc Unit}
    (h : links.push p upgraded pending pc = (links', pending', control)) :
    links'.nextFree = links.nextFree ∨ ∃ current, pc = .storeNextFree current := by
  cases pc with
  | storeNextFree current => exact Or.inr ⟨current, rfl⟩
  | casPending =>
    simp only [PageLinks.push] at h
    split at h <;> · obtain ⟨rfl, -⟩ := Prod.mk.inj h; exact Or.inl rfl
  | loadInFree | swapInFree | upgrade | loadPending =>
    obtain ⟨rfl, -⟩ := Prod.mk.inj h
    exact Or.inl rfl

theorem push_pending {p : Addr} {upgraded : Bool} {links links' : PageLinks} {pending pending' : Ptr}
    {pc : PushPc} {control : Control PushPc Unit}
    (h : links.push p upgraded pending pc = (links', pending', control)) :
    pending' = pending ∨ pc = .casPending pending ∧ pending' = some p ∧ links' = links := by
  cases pc with
  | casPending current =>
    simp only [PageLinks.push] at h
    split at h
    · rename_i e
      subst e
      obtain ⟨hlinks, h⟩ := Prod.mk.inj h
      obtain ⟨rfl, -⟩ := Prod.mk.inj h
      exact Or.inr ⟨rfl, rfl, hlinks.symm⟩
    · obtain ⟨-, h⟩ := Prod.mk.inj h
      obtain ⟨rfl, -⟩ := Prod.mk.inj h
      exact Or.inl rfl
  | loadInFree | swapInFree | upgrade | loadPending | storeNextFree =>
    obtain ⟨-, h⟩ := Prod.mk.inj h
    obtain ⟨rfl, -⟩ := Prod.mk.inj h
    exact Or.inl rfl

theorem push_step [DecidableEq ω] {pc : PushPc} {control : Control PushPc Unit}
    (h : Circulates nextFree inFreeList free pending place)
    (hd : Drops nextFree place w p (.push pc)) (hn : links.nextFree = nextFree p)
    (hf : links.inFreeList = inFreeList p)
    (hs : links.push p true pending pc = (links', pending', control)) :
    ∃ place', Circulates (Function.update nextFree p links'.nextFree)
    (Function.update inFreeList p links'.inFreeList)
        free pending' place' ∧ Frame w place place' ∧
      DropsAfter (Function.update nextFree p links'.nextFree) place' w p (control.map .push) ∧
      (∀ q, place q ≠ .held w → Function.update nextFree p links'.nextFree q = nextFree q) := by
  have hcargo := hd.cargo
  have hnsame : Function.update nextFree p links.nextFree = nextFree := by
    rw [hn, Function.update_eq_self]
  have hfsame : Function.update inFreeList p links.inFreeList = inFreeList := by
    rw [hf, Function.update_eq_self]
  cases pc with
  | loadInFree =>
    obtain ⟨rfl, rfl, rfl⟩ : links = links' ∧ pending = pending' ∧ _ = control := by
      simpa [PageLinks.push] using hs
    rw [hnsame, hfsame]
    refine ⟨place, h, Frame.refl, ?_, fun _ _ => rfl⟩
    split
    · exact hcargo
    · exact ⟨hcargo, fun _ e => by cases e⟩
  | swapInFree =>
    obtain ⟨rfl, rfl, rfl⟩ : _ = links' ∧ pending = pending' ∧ _ = control := by
      simpa [PageLinks.push] using hs
    simp only [hnsame]
    by_cases hin : links.inFreeList = true
    · -- another thread raised the flag first
      rw [show inFreeList = Function.update inFreeList p true by rw [← hin, hfsame]] at h
      refine ⟨place, h, Frame.refl, ?_, fun _ _ => trivial⟩
      rw [if_pos hin]
      exact hcargo
    · have hin : links.inFreeList = false := by simpa using hin
      have hout := (h.out p).mp (hf.symm.trans hin)
      refine ⟨_, h.claim (hf.symm.trans hin) w, Frame.update (by rw [hout]; rfl)
        (by simp [Place.movable]),
        ?_, fun _ _ => trivial⟩
      rw [if_neg (by simp [hin])]
      exact ⟨Carries.add hcargo, fun _ e => by cases e⟩
  | upgrade =>
    obtain ⟨rfl, rfl, rfl⟩ : links = links' ∧ pending = pending' ∧ _ = control := by
      simpa [PageLinks.push] using hs
    rw [hnsame, hfsame]
    exact ⟨place, h, Frame.refl, ⟨hcargo, fun _ e => by cases e⟩, fun _ _ => rfl⟩
  | loadPending =>
    obtain ⟨rfl, rfl, rfl⟩ : links = links' ∧ pending = pending' ∧ _ = control := by
      simpa [PageLinks.push] using hs
    rw [hnsame, hfsame]
    exact ⟨place, h, Frame.refl, ⟨hcargo, fun _ e => by cases e⟩, fun _ _ => rfl⟩
  | storeNextFree current =>
    obtain ⟨rfl, rfl, rfl⟩ : _ = links' ∧ pending = pending' ∧ _ = control := by
      simpa [PageLinks.push] using hs
    have hheld := Carries.single hcargo
    simp only [hfsame]
    refine ⟨place, h.write hheld current, Frame.refl, ⟨hcargo, fun c e => ?_⟩, fun q hq => ?_⟩
    · cases e; exact Function.update_self ..
    · refine Function.update_of_ne (fun e => ?_) _ _
      rw [e] at hq; exact hq hheld
  | casPending current =>
    by_cases hc : pending = current
    · subst hc
      obtain ⟨rfl, rfl, rfl⟩ : links = links' ∧ some p = pending' ∧ _ = control := by
        simpa [PageLinks.push] using hs
      have hheld := Carries.single hcargo
      rw [hnsame, hfsame]
      refine ⟨_, h.push hheld (hd.stored _ rfl), Frame.update
        (by rw [hheld]; simp [Place.movable]) rfl, ?_,
        fun _ _ => rfl⟩
      exact Carries.remove hcargo (by simp) (by simp)
    · obtain ⟨rfl, rfl, rfl⟩ : links = links' ∧ pending = pending' ∧ _ = control := by
        simpa [PageLinks.push, hc] using hs
      rw [hnsame, hfsame]
      exact ⟨place, h, Frame.refl, ⟨hcargo, fun _ e => by cases e⟩, fun _ _ => rfl⟩

end MemoryPools
