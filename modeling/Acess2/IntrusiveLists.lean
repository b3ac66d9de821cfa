import Mathlib.Data.List.Nodup

/-! Singly linked lists threaded through one shared `next` field.
A list is known by a head and a tail pointer; its members are found by following `next`.
A family of such lists shares the field, so a write meant for one list can break another:
the rules below say which writes keep the whole family intact. -/
namespace IntrusiveLists

open Function List Option

variable {α ι : Type*}

/-- The two pointers by which a list is known. -/
structure Ends (α : Type*) where
  head : Option α
  tail : Option α
  deriving DecidableEq

/-- Following `next` from `p` visits exactly `xs` and ends at a null link. -/
def Linked (next : α → Option α) : Option α → List α → Prop
  | p, [] => p = none
  | p, x :: xs => p = some x ∧ Linked next (next x) xs

variable {next next' : α → Option α} {xs ys : List α} {x y : α} {n : ℕ} {found : α → Bool}

theorem Linked.head_eq {p} (h : Linked next p xs) : p = xs.head? := by
  cases xs with
  | nil => exact h
  | cons x xs => exact h.1

theorem Linked.congr {p} (h : Linked next p xs)
    (hsame : ∀ x ∈ xs, next' x = next x) : Linked next' p xs := by
  induction xs generalizing p with
  | nil => exact h
  | cons x xs ih =>
    obtain ⟨hp, hrest⟩ := h
    have hx : next' x = next x := hsame x (by simp)
    exact ⟨hp, hx ▸ ih hrest fun y hy => hsame y (by simp [hy])⟩

theorem Linked.unique {p} (hx : Linked next p xs) (hy : Linked next p ys) : xs = ys := by
  induction xs generalizing p ys with
  | nil =>
    cases ys with
    | nil => rfl
    | cons y ys => simp_all [Linked]
  | cons x xs ih =>
    cases ys with
    | nil => simp_all [Linked]
    | cons y ys =>
      obtain ⟨rfl, hx⟩ := hx
      obtain ⟨hxy, hy⟩ := hy
      obtain rfl : x = y := by simpa using hxy
      rw [ih hx hy]

theorem Linked.cut {p} {zs : List α}
    (h : Linked next p (xs ++ y :: x :: zs)) (hy : next' y = next x)
    (hsame : ∀ z ∈ xs ++ zs, next' z = next z) : Linked next' p (xs ++ y :: zs) := by
  induction xs generalizing p with
  | nil =>
    obtain ⟨hp, -, hzs⟩ := h
    exact ⟨hp, hy ▸ hzs.congr fun z hz => hsame z (by simp [hz])⟩
  | cons w xs ih =>
    have hw : next' w = next w := hsame w (by simp)
    refine ⟨h.1, hw ▸ ih h.2 fun z hz => hsame z ?_⟩
    simp only [mem_append, cons_append, mem_cons] at hz ⊢
    exact .inr hz

theorem Linked.splice {p}
    (h : Linked next p (xs ++ y :: ys)) (hy : next' y = some x) (hx : next' x = next y)
    (hsame : ∀ z ∈ xs ++ ys, next' z = next z) : Linked next' p (xs ++ y :: x :: ys) := by
  induction xs generalizing p with
  | nil =>
    obtain ⟨hp, hys⟩ := h
    exact ⟨hp, hy, hx ▸ hys.congr fun z hz => hsame z (by simp [hz])⟩
  | cons w xs ih =>
    have hw : next' w = next w := hsame w (by simp)
    refine ⟨h.1, hw ▸ ih h.2 fun z hz => hsame z ?_⟩
    exact mem_cons_of_mem w hz

theorem Linked.rest {p} (h : Linked next p (xs ++ x :: ys)) : Linked next (next x) ys := by
  induction xs generalizing p with
  | nil => exact h.2
  | cons y xs ih => exact ih h.2

theorem Linked.next_eq {p} (h : Linked next p (xs ++ x :: ys)) : next x = ys.head? :=
  h.rest.head_eq

theorem Linked.reach {p} {zs : List α}
    (h : Linked next p (xs ++ x :: ys)) (hsame : ∀ y ∈ xs, next' y = next y)
    (h' : Linked next' p zs) : x ∈ zs := by
  induction xs generalizing p zs with
  | nil =>
    cases zs with
    | nil => simp_all [Linked]
    | cons z zs =>
      have hxz : x = z := by simpa using h.1.symm.trans h'.1
      simp [hxz]
  | cons y xs ih =>
    cases zs with
    | nil => simp_all [Linked]
    | cons z zs =>
      obtain rfl : y = z := by simpa using h.1.symm.trans h'.1
      have hy : next' y = next y := hsame y (by simp)
      exact mem_cons_of_mem y (ih h.2 (fun w hw => hsame w (by simp [hw])) (hy ▸ h'.2))

theorem getLast?_without (h : ys ≠ []) : (xs ++ x :: ys).getLast? = (xs ++ ys).getLast? := by
  cases ys with
  | nil => exact absurd rfl h
  | cons y ys => simp [getLast?_append]

def linksOf [DecidableEq α] (xs : List α) (x : α) : Option α :=
  (xs.dropWhile (· ≠ x)).tail.head?

theorem linksOf_eq [DecidableEq α] (h : x ∉ xs) : linksOf (xs ++ x :: ys) x = ys.head? := by
  induction xs with
  | nil => simp [linksOf]
  | cons y xs ih =>
    simp only [mem_cons, not_or] at h
    simpa [linksOf, Ne.symm h.1] using ih h.2

theorem linked_linksOf [DecidableEq α] (h : xs.Nodup) : Linked (linksOf xs) xs.head? xs := by
  -- every tail of the list is linked
  have htail : ∀ ys zs, xs = ys ++ zs → Linked (linksOf xs) zs.head? zs := by
    intro ys zs
    induction zs generalizing ys with
    | nil => intro _; rfl
    | cons z zs ih =>
      intro hxs
      have hz : z ∉ ys := by
        rw [hxs] at h
        exact fun hz => (nodup_cons.mp (nodup_middle.mp h)).1 (mem_append_left _ hz)
      have hnext : linksOf xs z = zs.head? := by rw [hxs]; exact linksOf_eq hz
      exact ⟨rfl, hnext ▸ ih (ys ++ [z]) (by simp [hxs])⟩
  exact htail [] xs rfl

theorem linksOf_notMem [DecidableEq α] (h : x ∉ xs) : linksOf xs x = none := by
  induction xs with
  | nil => rfl
  | cons y xs ih =>
    simp only [mem_cons, not_or] at h
    simpa [linksOf, Ne.symm h.1] using ih h.2

/-- Walking from `p`, behind `prev`, until `x` is met: `none` when the fuel runs out, `some none`
when the chain ends first, and otherwise the predecessor of `x` -/
def seek [DecidableEq α] (next : α → Option α) (x : α) :
    ℕ → Option α → Option α → Option (Option (Option α))
  | 0, _, _ => none
  | _ + 1, _, none => some none
  | fuel + 1, prev, some y =>
    if y = x then some (some prev) else seek next x fuel (some y) (next y)

theorem seek_found [DecidableEq α] {p prev}
    (h : Linked next p (xs ++ x :: ys)) (hx : x ∉ xs) (hn : xs.length < n) :
    seek next x n prev p = some (some (xs.getLast?.or prev)) := by
  induction xs generalizing p prev n with
  | nil =>
    obtain ⟨m, rfl⟩ := Nat.exists_eq_add_of_lt hn
    obtain rfl := h.1
    simp [seek]
  | cons y xs ih =>
    cases n with
    | zero => exact absurd hn (by simp)
    | succ m =>
      simp only [mem_cons, not_or] at hx
      obtain ⟨rfl, hrest⟩ := h
      have hm : xs.length < m := by simpa using hn
      rw [seek, if_neg (Ne.symm hx.1), ih hrest hx.2 hm]
      cases xs with
      | nil => simp
      | cons z zs => simp [getLast?_cons]

theorem seek_absent [DecidableEq α] {p prev}
    (h : Linked next p xs) (hx : x ∉ xs) (hn : xs.length < n) :
    seek next x n prev p = some none := by
  induction xs generalizing p prev n with
  | nil =>
    obtain ⟨m, rfl⟩ := Nat.exists_eq_add_of_lt hn
    obtain rfl := h
    simp [seek]
  | cons y xs ih =>
    cases n with
    | zero => exact absurd hn (by simp)
    | succ m =>
      simp only [mem_cons, not_or] at hx
      obtain ⟨rfl, hrest⟩ := h
      rw [seek, if_neg (Ne.symm hx.1)]
      exact ih hrest hx.2 (by simpa using hn)

theorem seek_mem [DecidableEq α] {p prev}
    (h : Linked next p xs) (hseek : seek next x n prev p = some (some (some y))) :
    prev = some y ∨ y ∈ xs := by
  induction xs generalizing p prev n with
  | nil =>
    obtain rfl := h
    cases n with
    | zero => cases hseek
    | succ n => cases hseek
  | cons z xs ih =>
    obtain ⟨rfl, hrest⟩ := h
    cases n with
    | zero => cases hseek
    | succ n =>
      rw [seek] at hseek
      split_ifs at hseek with hzx
      · exact .inl (some.inj (some.inj hseek))
      · rcases ih hrest hseek with hz | hy
        · exact .inr (some.inj hz ▸ mem_cons_self)
        · exact .inr (mem_cons_of_mem z hy)

/-- Walking from `p` until an element is found; `none` when the fuel runs out. -/
def walk (next : α → Option α) (found : α → Bool) : ℕ → Option α → Option (Option α)
  | 0, _ => none
  | _ + 1, none => some none
  | fuel + 1, some x => if found x then some (some x) else walk next found fuel (next x)

theorem walk_eq {p}
    (h : Linked next p xs) (hn : xs.length < n) : walk next found n p = some (xs.find? found) := by
  induction xs generalizing p n with
  | nil =>
    obtain rfl := h
    obtain ⟨m, rfl⟩ := Nat.exists_eq_add_of_lt hn
    rfl
  | cons x xs ih =>
    obtain ⟨rfl, hrest⟩ := h
    cases n with
    | zero => exact absurd hn (by simp)
    | succ m =>
      have hm : xs.length < m := by simpa using hn
      rw [walk, find?_cons, ih hrest hm]
      cases found x <;> rfl

/-- Walking from `p` with something gathered from the elements that are passed -/
def sweep {β : Type*} (next : α → Option α) (found : α → Bool) (gather : β → α → β) :
    ℕ → β → Option α → Option (β × Option α)
  | 0, _, _ => none
  | _ + 1, b, none => some (b, none)
  | fuel + 1, b, some x =>
    if found x then some (b, some x) else sweep next found gather fuel (gather b x) (next x)

theorem sweep_eq {β : Type*} {gather : β → α → β} {p}
    (h : Linked next p xs) (hn : xs.length < n) (b : β) :
    sweep next found gather n b p =
      some ((xs.takeWhile fun x => !found x).foldl gather b, xs.find? found) := by
  induction xs generalizing p n b with
  | nil =>
    obtain rfl := h
    obtain ⟨m, rfl⟩ := Nat.exists_eq_add_of_lt hn
    rfl
  | cons x xs ih =>
    obtain ⟨rfl, hrest⟩ := h
    cases n with
    | zero => exact absurd hn (by simp)
    | succ m =>
      have hm : xs.length < m := by simpa using hn
      rw [sweep, find?_cons, takeWhile_cons, ih hrest hm]
      cases found x <;> rfl

/-- A family of lists sharing `next` holds the members `q`, each once, with right tails. -/
structure Holds (next : α → Option α) (ends : ι → Ends α) (q : ι → List α) : Prop where
  linked : ∀ i, Linked next (ends i).head (q i)
  nodup : ∀ i, (q i).Nodup
  apart : ∀ {i j x}, x ∈ q i → x ∈ q j → i = j
  tail : ∀ i, q i ≠ [] → (ends i).tail = (q i).getLast?

section Family

variable {ends : ι → Ends α} {q : ι → List α} {i : ι}

theorem Holds.head_eq (h : Holds next ends q) (i : ι) : (ends i).head = (q i).head? :=
  (h.linked i).head_eq

theorem mem_update_concat [DecidableEq ι] {j : ι} :
    y ∈ update q i (q i ++ [x]) j ↔ y ∈ q j ∨ (j = i ∧ y = x) := by
  by_cases hj : j = i
  · subst hj
    simp
  · simp [hj]

theorem Holds.frame (h : Holds next ends q) (hsame : ∀ i, ∀ y ∈ q i, next' y = next y) :
    Holds next' ends q :=
  ⟨fun i => (h.linked i).congr (hsame i), h.nodup, h.apart, h.tail⟩

variable {e : Ends α}

variable (h : Holds next ends q)
include h

theorem Holds.replace [DecidableEq ι]
    (hl : Linked next' e.head ys) (hn : ys.Nodup) (ht : ys ≠ [] → e.tail = ys.getLast?)
    (hfree : ∀ y ∈ ys, ∀ j, j ≠ i → y ∉ q j) (hsame : ∀ j, j ≠ i → ∀ y ∈ q j, next' y = next y) :
    Holds next' (update ends i e) (update q i ys) := by
  constructor
  · intro j
    by_cases hj : j = i
    · subst hj; simpa using hl
    · simpa [hj] using (h.linked j).congr (hsame j hj)
  · intro j
    by_cases hj : j = i
    · subst hj; simpa using hn
    · simpa [hj] using h.nodup j
  · intro j k y hyj hyk
    by_cases hj : j = i <;> by_cases hk : k = i
    · rw [hj, hk]
    · rw [hj, update_self] at hyj
      rw [update_of_ne hk] at hyk
      exact absurd hyk (hfree y hyj k hk)
    · rw [hk, update_self] at hyk
      rw [update_of_ne hj] at hyj
      exact absurd hyj (hfree y hyk j hj)
    · rw [update_of_ne hj] at hyj
      rw [update_of_ne hk] at hyk
      exact h.apart hyj hyk
  · intro j hj
    by_cases hji : j = i
    · subst hji; simpa using ht (by simpa using hj)
    · rw [update_of_ne hji] at hj ⊢
      rw [update_of_ne hji]
      exact h.tail j hj

theorem Holds.insert [DecidableEq ι]
    (hq : q i = xs ++ ys) (hx : ∀ j, x ∉ q j) (hnx : next' x = ys.head?)
    (hlast : ∀ t, xs.getLast? = some t → next' t = some x)
    (hsame : ∀ y, y ≠ x → xs.getLast? ≠ some y → next' y = next y)
    (hhead : e.head = xs.head?.or (some x)) (htail : e.tail = (xs ++ x :: ys).getLast?) :
    Holds next' (update ends i e) (update q i (xs ++ x :: ys)) := by
  have hne : ∀ {j y}, y ∈ q j → y ≠ x := fun {j y} hy hyx => hx j (hyx ▸ hy)
  have hl := h.linked i
  have hn := h.nodup i
  have hxi := hx i
  rw [hq] at hl hn hxi
  refine h.replace ?linked ?nodup (fun _ => htail) ?free ?same
  case linked =>
    rcases eq_nil_or_concat xs with hxs | ⟨zs, z, hxs⟩
    · subst hxs
      have hl' : Linked next (ends i).head ys := hl
      have hys : Linked next' (next' x) ys := by
        rw [hnx, ← hl'.head_eq]
        exact hl'.congr fun y hy => hsame y (hne (j := i) (by simp [hq, hy])) (by simp)
      exact ⟨hhead, hys⟩
    rw [concat_eq_append] at hxs
    subst hxs
    have hhead' : e.head = (ends i).head := by
      rw [hl.head_eq, hhead]
      cases zs <;> simp
    rw [hhead', append_assoc]
    rw [append_assoc] at hl hn
    refine hl.splice (hlast z (by simp)) (hnx.trans hl.next_eq.symm) fun y hy => ?_
    have hyz : z ≠ y := by
      rintro rfl
      exact (nodup_cons.mp (nodup_middle.mp hn)).1 hy
    have hyq : y ∈ q i := by
      rw [hq]
      simp only [mem_append] at hy ⊢
      tauto
    exact hsame y (hne hyq) (by simpa using hyz)
  case nodup => exact nodup_middle.mpr (nodup_cons.mpr ⟨hxi, hn⟩)
  case free =>
    intro y hy j hj hyj
    rcases mem_cons.mp (perm_middle.mem_iff.mp hy) with hy | hy
    · exact hx j (hy ▸ hyj)
    · exact hj (h.apart hyj (hq ▸ hy))
  case same =>
    intro j hj y hy
    refine hsame y (hne hy) fun hl => hj (h.apart hy ?_)
    rw [hq]
    exact mem_append_left ys (mem_of_getLast? hl)

theorem Holds.append [DecidableEq ι] (hx : ∀ j, x ∉ q j) (hnx : next' x = none)
    (hlast : ∀ t, (q i).getLast? = some t → next' t = some x)
    (hsame : ∀ y, y ≠ x → (q i).getLast? ≠ some y → next' y = next y)
    (hhead : e.head = (q i).head?.or (some x)) (htail : e.tail = some x) :
    Holds next' (update ends i e) (update q i (q i ++ [x])) :=
  h.insert (append_nil _).symm hx hnx hlast hsame hhead (by simpa using htail)

theorem Holds.unlink [DecidableEq ι] (hq : q i = xs ++ x :: ys)
    (hprev : ∀ y, xs.getLast? = some y → next' y = next x)
    (hsame : ∀ y, y ≠ x → xs.getLast? ≠ some y → next' y = next y)
    (hhead : e.head = (xs ++ ys).head?)
    (htail : xs ++ ys ≠ [] → e.tail = (xs ++ ys).getLast?) :
    Holds next' (update ends i e) (update q i (xs ++ ys)) := by
  have hl := h.linked i
  have hn := h.nodup i
  rw [hq] at hl hn
  have hxs : ∀ y ∈ xs ++ ys, y ≠ x := by
    intro y hy hyx
    exact (nodup_cons.mp (nodup_middle.mp hn)).1 (hyx ▸ hy)
  have hsub : ∀ y ∈ xs ++ ys, y ∈ q i := by
    intro y hy
    rw [hq]
    simp only [mem_append, mem_cons] at hy ⊢
    tauto
  refine h.replace ?linked ?nodup htail ?free ?same
  case linked =>
    rcases eq_nil_or_concat xs with hx | ⟨zs, z, hx⟩
    · subst hx
      simp only [nil_append] at hl hhead hsame ⊢
      have hys : Linked next (next x) ys := hl.2
      rw [hhead, ← hys.head_eq]
      exact hys.congr fun y hy => hsame y (hxs y (by simpa using hy)) (by simp)
    rw [concat_eq_append] at hx
    subst hx
    simp only [append_assoc, cons_append, nil_append] at hl hn ⊢
    have hhead' : e.head = (ends i).head := by
      rw [hl.head_eq, hhead]
      cases zs <;> simp
    rw [hhead']
    refine hl.cut (hprev z (by simp)) fun y hy => hsame y (hxs y ?_) ?_
    · simp only [mem_append, mem_cons] at hy ⊢
      tauto
    · have hyz : z ≠ y := by
        intro hzy
        have hz := (nodup_cons.mp (nodup_middle.mp hn)).1
        simp only [mem_append, mem_cons, hzy] at hy hz
        tauto
      simpa using hyz
  case nodup => exact hn.sublist (by simp)
  case free =>
    intro y hy j hj hyj
    exact hj (h.apart hyj (hsub y hy))
  case same =>
    intro j hj y hy
    refine hsame y (fun hyx => hj (h.apart hy ?_)) fun hlast => hj (h.apart hy (hsub y ?_))
    · rw [hyx, hq]; simp
    · exact mem_append_left ys (mem_of_getLast? hlast)

theorem Holds.pop [DecidableEq ι]
    (hq : q i = x :: ys) (hsame : ∀ y, y ≠ x → next' y = next y) (hhead : e.head = ys.head?)
    (htail : ys ≠ [] → e.tail = ys.getLast?) : Holds next' (update ends i e) (update q i ys) := by
  have hq' : q i = [] ++ x :: ys := by simpa using hq
  exact h.unlink hq' (by simp) (fun y hy _ => hsame y hy) hhead htail

theorem Holds.mem_update_erase [DecidableEq ι] [DecidableEq α] {j : ι} (hx : x ∈ q i) :
    y ∈ update q i ((q i).erase x) j ↔ y ∈ q j ∧ y ≠ x := by
  by_cases hj : j = i
  · subst hj
    rw [update_self, (h.nodup j).mem_erase_iff, and_comm]
  · rw [update_of_ne hj]
    exact ⟨fun hy => ⟨hy, fun hyx => hj (h.apart hy (hyx ▸ hx))⟩, And.left⟩

end Family

variable {prev : α → Option α} {p : Option α} {β : Type*} {f : β → Option α} {a b : β}

/-- Every element is pointed at from at most one place, whatever the tails are. -/
def Solo (f : β → Option α) : Prop := ∀ a b x, f a = some x → f b = some x → a = b

def Unpointed (f : β → Option α) (x : α) : Prop := ∀ a, f a ≠ some x

variable [DecidableEq β]

theorem Unpointed.clear (h : Unpointed f x) (a : β) : Unpointed (update f a none) x := by
  intro c
  by_cases hc : c = a
  · simp [hc]
  · simpa [hc] using h c

theorem Unpointed.point (h : Unpointed f x) (hxy : x ≠ y) (a : β) :
    Unpointed (update f a (some y)) x := by
  intro c
  by_cases hc : c = a
  · simpa [hc] using hxy.symm
  · simpa [hc] using h c

theorem Solo.clear (h : Solo f) (a : β) : Solo (update f a none) := by
  intro c d z hc hd
  by_cases hca : c = a
  · simp [hca] at hc
  · by_cases hda : d = a
    · simp [hda] at hd
    · exact h c d z (by simpa [hca] using hc) (by simpa [hda] using hd)

theorem Solo.point (h : Solo f) (hx : Unpointed f x) (a : β) : Solo (update f a (some x)) := by
  intro c d z hc hd
  by_cases hca : c = a <;> by_cases hda : d = a
  · rw [hca, hda]
  · rw [hca, update_self] at hc
    rw [update_of_ne hda] at hd
    exact absurd (hd.trans hc.symm) (hx d)
  · rw [hda, update_self] at hd
    rw [update_of_ne hca] at hc
    exact absurd (hc.trans hd.symm) (hx c)
  · exact h c d z (by simpa [hca] using hc) (by simpa [hda] using hd)

theorem Solo.move (h : Solo f) (hab : a ≠ b) (hx : f a = some x) :
    Solo (update (update f a (f b)) b none) ∧ Unpointed (update (update f a (f b)) b none) x := by
  have hval : ∀ c, update (update f a (f b)) b none c =
      if c = b then none else if c = a then f b else f c := by
    intro c
    by_cases hcb : c = b
    · simp [hcb]
    · by_cases hca : c = a <;> simp [hcb, hca, hab]
  constructor
  · intro c d z hc hd
    rw [hval] at hc hd
    split_ifs at hc hd with h₁ h₂ h₃ h₄ h₅ h₆
    · rw [h₂, h₄]
    · exact absurd (h d b z hd hc) h₃
    · exact absurd (h c b z hc hd) h₁
    · exact h c d z hc hd
  · intro c hc
    rw [hval] at hc
    split_ifs at hc with h₁ h₂
    · exact hab (h a b x hx hc)
    · exact h₂ (h c a x hc hx)

theorem Unpointed.copy (h : Unpointed f x) (a b : β) : Unpointed (update f a (f b)) x := by
  intro c
  by_cases hc : c = a
  · simpa [hc] using h b
  · simpa [hc] using h c

theorem Solo.requeue {c : β} (h : Solo f) (hb : f b = some x) (hbc : b ≠ c) (a : β) :
    Solo (update (update (update f b (f c)) a (some x)) c none) ∧ ∀ y, y ≠ x → Unpointed f y →
        Unpointed (update (update (update f b (f c)) a (some x)) c none)
          y := by
  obtain ⟨hsolo, hfree⟩ := h.move hbc hb
  -- the link may as well be cleared before
  have hclear : update (update (update f b (f c)) a (some x)) c none
      = update (update (update (update f b (f c)) c none) a (some x)) c none := by
    funext d
    by_cases hdc : d = c
    · simp [hdc]
    · by_cases hda : d = a <;> simp [update_apply, hdc, hda]
  constructor
  · rw [hclear]
    exact (hsolo.point hfree a).clear c
  · intro y hyx hy
    exact ((hy.copy b c).point hyx a).clear c

theorem Solo.unpointed (h : Solo f) (hb : f b = some x) : Unpointed (update f b none) x := by
  intro c hc
  by_cases hcb : c = b
  · simp [hcb] at hc
  · exact hcb (h c b x (by simpa [hcb] using hc) hb)

theorem seek_pred [DecidableEq α] {prev r : Option α} (h : seek next x n prev p = some (some r)) :
    (r = prev ∧ p = some x) ∨ ∃ y, r = some y ∧ next y = some x ∧ y ≠ x := by
  induction n generalizing prev p with
  | zero => simp [seek] at h
  | succ n ih =>
    cases p with
    | none => simp [seek] at h
    | some y =>
      rw [seek] at h
      split_ifs at h with hyx
      · exact .inl ⟨by simpa using h.symm, by rw [hyx]⟩
      · rcases ih h with ⟨hr, hy⟩ | hy
        · exact .inr ⟨y, hr, hy, hyx⟩
        · exact .inr hy

theorem Linked.pred {p} (h : Linked next p xs)
    (hy : y ∈ xs) (hyx : next y = some x) : ∃ l r, xs = l ++ [y] ++ x :: r := by
  induction xs generalizing p with
  | nil => simp at hy
  | cons z xs ih =>
    obtain ⟨-, hrest⟩ := h
    by_cases hzy : z = y
    · subst hzy
      cases xs with
      | nil => rw [hyx] at hrest; cases hrest
      | cons w xs =>
        obtain rfl : x = w := by simpa [hyx] using hrest.1
        exact ⟨[], xs, by simp⟩
    · obtain ⟨l, r, rfl⟩ := ih hrest (by simpa [Ne.symm hzy] using hy)
      exact ⟨z :: l, r, by simp⟩

section Solitary

variable {ends : ι → Ends α} {q : ι → List α}

variable (h : Holds next ends q)
include h

variable (hoff : ∀ x, (∀ i, x ∉ q i) → next x = none)
include hoff

theorem Holds.link_pred (hyx : next y = some x) : ∃ i l r, q i = l ++ [y] ++ x :: r := by
  obtain ⟨i, hi⟩ : ∃ i, y ∈ q i := by
    by_contra hno
    simp only [not_exists] at hno
    rw [hoff y hno] at hyx
    cases hyx
  exact ⟨i, (h.linked i).pred hi hyx⟩

omit hoff in
theorem Holds.head_cons {i : ι} (hx : (ends i).head = some x) : ∃ r, q i = x :: r := by
  rw [h.head_eq] at hx
  exact head?_eq_some_iff.mp hx

theorem Holds.unpointed
    (hx : ∀ i, x ∉ q i) : Unpointed (Sum.elim (fun i => (ends i).head) next) x := by
  intro a ha
  cases a with
  | inl i =>
    obtain ⟨r, hi⟩ := h.head_cons ha
    exact hx i (by simp [hi])
  | inr y =>
    obtain ⟨i, l, r, hi⟩ := h.link_pred hoff ha
    exact hx i (by simp [hi])

/-- In a family that holds its lists, and with null links elsewhere, every element is pointed
at from one place at most. -/
theorem Holds.solo : Solo (Sum.elim (fun i => (ends i).head) next) := by
  -- the part of a list in front of an element is determined by it
  have hfront : ∀ {i j l l' r r' x}, q i = l ++ x :: r → q j = l' ++ x :: r' → i = j ∧ l = l' := by
    intro i j l l' r r' x hi hj
    obtain rfl : i = j := h.apart (x := x) (by simp [hi]) (by simp [hj])
    refine ⟨rfl, ?_⟩
    have hn := h.nodup i
    rw [hi] at hn
    have hx := (nodup_cons.mp (nodup_middle.mp hn)).1
    simp only [mem_append, not_or] at hx
    exact ((append_cons_inj_of_notMem hx.1 hx.2).mp (hi ▸ hj)).1
  have hplace : ∀ {a x}, Sum.elim (fun i => (ends i).head) next a = some x →
      ∃ i l r, q i = l ++ x :: r ∧ a = l.getLast?.elim (.inl i) .inr := by
    intro a x ha
    cases a with
    | inl i =>
      obtain ⟨r, hi⟩ := h.head_cons ha
      exact ⟨i, [], r, hi, rfl⟩
    | inr y =>
      obtain ⟨i, l, r, hi⟩ := h.link_pred hoff ha
      exact ⟨i, l ++ [y], r, hi, by simp⟩
  intro a b x ha hb
  obtain ⟨i, l, r, hi, rfl⟩ := hplace ha
  obtain ⟨j, l', r', hj, rfl⟩ := hplace hb
  obtain ⟨rfl, rfl⟩ := hfront hi hj
  rfl

end Solitary

end IntrusiveLists
