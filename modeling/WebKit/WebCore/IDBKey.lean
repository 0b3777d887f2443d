import WebKit.Lib.Comparison
import WebKit.WTF.Double
import WebKit.WTF.WTFString

/-!
# IndexedDB keys

`IDBKey` with its `compare`, and `rank`, the abstract order: every key stands for a sequence of integers, and keys are
compared as these sequences are, lexicographically. A rank ends itself (no rank is a proper prefix of another), so the
order of two keys decides the order of any sequences that begin with their ranks (`lexOrder_rank_append`).
-/

namespace WebKit.WebCore

open WebKit.Lib WebKit.WTF

/-- An `IDBKey`, by its type. -/
inductive IDBKey
  | invalid
  | array (items : List IDBKey)
  | string (text : List UChar)
  | date (time : Double)
  | number (value : Double)

namespace IDBKey

/-- `IDBKey::Type`, in order of the least to the highest precedent in terms of sort order. -/
inductive KeyType
  | invalidType
  | arrayType
  | stringType
  | dateType
  | numberType
  | minType
  deriving DecidableEq

def KeyType.code : KeyType → Int
  | invalidType => 0
  | arrayType => 1
  | stringType => 2
  | dateType => 3
  | numberType => 4
  | minType => 5

def type : IDBKey → KeyType
  | invalid => .invalidType
  | array _ => .arrayType
  | string _ => .stringType
  | date _ => .dateType
  | number _ => .numberType

def compareTypes (a b : KeyType) : Int := b.code - a.code

mutual

@[grind =] def isValid : IDBKey → Bool
  | invalid => false
  | array items => allValid items
  | _ => true

@[grind =] def allValid : List IDBKey → Bool
  | [] => true
  | item :: items => isValid item && allValid items

end

/-- `m_number < other->m_number ? -1 : m_number > other->m_number ? 1 : 0` -/
def compareNumbers (number other : Double) : Int :=
  if number.lt other then -1 else if other.lt number then 1 else 0

mutual

@[grind =] def compare (key other : IDBKey) : Int :=
  if key.type ≠ other.type then if key.type.code > other.type.code then -1 else 1
  else
    match key, other with
    | array items, array items' => compareItems items items'
    | string text, string text' => -codePointCompare text' text
    | date time, date time' => compareNumbers time time'
    | number value, number value' => compareNumbers value value'
    | _, _ => 0

/-- The loop of `compare` over the items of two arrays. -/
@[grind =] def compareItems : List IDBKey → List IDBKey → Int
  | item :: items, item' :: items' =>
    if compare item item' ≠ 0 then compare item item' else compareItems items items'
  | [], _ :: _ => -1
  | _ :: _, [] => 1
  | [], [] => 0

end

theorem induct {P : IDBKey → Prop} (invalid : P .invalid)
    (array : ∀ items, (∀ item ∈ items, P item) → P (.array items)) (string : ∀ text, P (.string text))
    (date : ∀ time, P (.date time)) (number : ∀ value, P (.number value)) (key : IDBKey) : P key :=
  IDBKey.rec (motive_1 := P) (motive_2 := fun items => ∀ item ∈ items, P item) invalid (fun items => array items) string
    date number (fun item hitem => absurd hitem List.not_mem_nil)
    (fun head tail hhead htail item hitem => by
      rcases List.mem_cons.mp hitem with rfl | h
      · exact hhead
      · exact htail item h) key

/-! ## Keys that can be stored and ordered -/

mutual

/-- A property of a key and of all keys in it. -/
@[grind =] def Every (P : IDBKey → Prop) : IDBKey → Prop
  | array items => P (.array items) ∧ EveryItem P items
  | key => P key

@[grind =] def EveryItem (P : IDBKey → Prop) : List IDBKey → Prop
  | [] => True
  | item :: items => Every P item ∧ EveryItem P items

end

theorem everyItem_iff {P : IDBKey → Prop} {items : List IDBKey} : EveryItem P items ↔ ∀ item ∈ items, Every P item := by
  induction items with
  | nil => simp [EveryItem]
  | cons item items ih => simp [EveryItem, ih]

theorem every_array {P : IDBKey → Prop} {items : List IDBKey} :
    Every P (.array items) ↔ P (.array items) ∧ ∀ item ∈ items, Every P item := by
  rw [Every, everyItem_iff]

theorem isValid_array {items : List IDBKey} : isValid (.array items) = true ↔ ∀ item ∈ items, isValid item = true := by
  rw [isValid]
  induction items with
  | nil => simp [allValid]
  | cons item items ih => simp [allValid, ih]

/-- The lengths of strings and of vectors are `unsigned`. -/
def LengthFits : IDBKey → Prop
  | array items => items.length < 2 ^ 32
  | string text => text.length < 2 ^ 32
  | _ => True

def NotNaN : IDBKey → Prop
  | date time => time.isNaN = false
  | number value => value.isNaN = false
  | _ => True

/-! ## Ranks -/

/-- The rank of a string: its characters counted from 1, then 0. -/
def rankText : List UChar → List Int
  | [] => [0]
  | c :: text => (c.toNat + 1 : Int) :: rankText text

mutual

/-- The rank of a key. Of two types the one with the greater code comes first. -/
@[grind =] def rank : IDBKey → List Int
  | invalid => [-KeyType.invalidType.code]
  | array items => -KeyType.arrayType.code :: rankItems items
  | string text => -KeyType.stringType.code :: rankText text
  | date time => [-KeyType.dateType.code, time.value]
  | number value => [-KeyType.numberType.code, value.value]

/-- The ranks of the items of an array, a 1 in front of each, then 0. -/
@[grind =] def rankItems : List IDBKey → List Int
  | [] => [0]
  | item :: items => 1 :: (rank item ++ rankItems items)

end

theorem lexOrder_rankText_append (text₁ text₂ : List UChar) (rest₁ rest₂ : List Int) :
    lexOrder (rankText text₁ ++ rest₁) (rankText text₂ ++ rest₂) =
      (orderingOf (codePointCompare text₁ text₂)).then (lexOrder rest₁ rest₂) := by
  induction text₁ generalizing text₂ with
  | nil =>
    cases text₂ with
    | nil => exact lexOrder_cons_self 0 rest₁ rest₂
    | cons c₂ text₂ =>
      have hlt : (0 : Int) < c₂.toNat + 1 := by omega
      rw [codePointCompare, orderingOf_neg_one]
      · exact lexOrder_cons_of_lt hlt _ _
      · simp
  | cons c₁ text₁ ih =>
    cases text₂ with
    | nil =>
      have hgt : (0 : Int) < c₁.toNat + 1 := by omega
      rw [codePointCompare, orderingOf_one]
      · exact lexOrder_cons_of_gt hgt _ _
      · simp
    | cons c₂ text₂ =>
      rw [codePointCompare, rankText, rankText, List.cons_append, List.cons_append]
      by_cases heq : c₁ = c₂
      · rw [if_pos heq, heq, lexOrder_cons_self, ih]
      · have hne : c₁.toNat ≠ c₂.toNat := fun h => heq (UInt16.toNat_inj.mp h)
        rw [if_neg heq]
        by_cases hgt : c₁ > c₂
        · have hgt' : c₂.toNat < c₁.toNat := UInt16.lt_iff_toNat_lt.mp hgt
          rw [if_pos hgt, lexOrder_cons_of_gt (by omega), orderingOf_one]
          rfl
        · have hle : ¬ c₂.toNat < c₁.toNat := fun h => hgt (UInt16.lt_iff_toNat_lt.mpr h)
          rw [if_neg hgt, lexOrder_cons_of_lt (by omega), orderingOf_neg_one]
          rfl

theorem codePointCompare_swap (text₁ text₂ : List UChar) :
    orderingOf (codePointCompare text₂ text₁) = (orderingOf (codePointCompare text₁ text₂)).swap := by
  have h₁ := lexOrder_rankText_append text₁ text₂ [] []
  have h₂ := lexOrder_rankText_append text₂ text₁ [] []
  have hnil : lexOrder [] [] = .eq := rfl
  rw [hnil, Ordering.then_eq] at h₁ h₂
  rw [← h₁, ← h₂]
  exact Std.OrientedCmp.eq_swap

theorem orderingOf_compareNumbers {number other : Double} (h : number.isNaN = false) (h' : other.isNaN = false) :
    orderingOf (compareNumbers number other) = Ord.compare number.value other.value := by
  have hlt := Double.lt_iff h h'
  have hgt := Double.lt_iff h' h
  rw [compareNumbers, ← orderingOf_ifLess]
  simp only [hlt, hgt, gt_iff_lt]

theorem rank_eq_cons (key : IDBKey) : ∃ tail, rank key = -key.type.code :: tail := by
  cases key <;> exact ⟨_, by rw [rank]; rfl⟩

theorem code_injective {t₁ t₂ : KeyType} (h : t₁.code = t₂.code) : t₁ = t₂ := by
  cases t₁ <;> cases t₂ <;> first | rfl | exact absurd h (by decide)

theorem lexOrder_rankItems_append (items₁ items₂ : List IDBKey) (rest₁ rest₂ : List Int)
    (hitems : ∀ item₁ ∈ items₁, ∀ item₂ ∈ items₂, ∀ tail₁ tail₂ : List Int,
      lexOrder (rank item₁ ++ tail₁) (rank item₂ ++ tail₂) =
        (orderingOf (compare item₁ item₂)).then (lexOrder tail₁ tail₂)) :
    lexOrder (rankItems items₁ ++ rest₁) (rankItems items₂ ++ rest₂) =
      (orderingOf (compareItems items₁ items₂)).then (lexOrder rest₁ rest₂) := by
  induction items₁ generalizing items₂ with
  | nil =>
    cases items₂ with
    | nil =>
      rw [rankItems, compareItems, orderingOf_zero]
      exact lexOrder_cons_self 0 rest₁ rest₂
    | cons item₂ items₂ =>
      rw [rankItems, rankItems, compareItems, orderingOf_neg_one]
      exact lexOrder_cons_of_lt (by omega) _ _
  | cons item₁ items₁ ih =>
    cases items₂ with
    | nil =>
      rw [rankItems, rankItems, compareItems, orderingOf_one]
      exact lexOrder_cons_of_gt (by omega) _ _
    | cons item₂ items₂ =>
      have hhead := hitems item₁ List.mem_cons_self item₂ List.mem_cons_self
      have htail := ih items₂ (fun x₁ h₁ x₂ h₂ => hitems x₁ (List.mem_cons_of_mem _ h₁) x₂ (List.mem_cons_of_mem _ h₂))
      rw [rankItems, rankItems, compareItems, List.cons_append, List.cons_append, lexOrder_cons_self,
        List.append_assoc, List.append_assoc, hhead, htail, orderingOf_ifNonzero, then_assoc]

theorem lexOrder_rank_of_type_ne {key other : IDBKey} (h : key.type ≠ other.type) (rest₁ rest₂ : List Int) :
    lexOrder (rank key ++ rest₁) (rank other ++ rest₂) =
      (orderingOf (compare key other)).then (lexOrder rest₁ rest₂) := by
  obtain ⟨tail₁, h₁⟩ := rank_eq_cons key
  obtain ⟨tail₂, h₂⟩ := rank_eq_cons other
  have hcode : key.type.code ≠ other.type.code := fun heq => h (code_injective heq)
  rw [h₁, h₂, compare.eq_def, if_pos h, List.cons_append, List.cons_append]
  by_cases hgt : key.type.code > other.type.code
  · rw [if_pos hgt, lexOrder_cons_of_lt (by omega), orderingOf_neg_one]
    rfl
  · rw [if_neg hgt, lexOrder_cons_of_gt (by omega), orderingOf_one]
    rfl

theorem lexOrder_number_append {number other : Double} (code : Int) (h : number.isNaN = false)
    (h' : other.isNaN = false) (rest₁ rest₂ : List Int) :
    lexOrder ([code, number.value] ++ rest₁) ([code, other.value] ++ rest₂) =
      (orderingOf (compareNumbers number other)).then (lexOrder rest₁ rest₂) := by
  show lexOrder (code :: number.value :: rest₁) (code :: other.value :: rest₂) = _
  rw [lexOrder_cons_self, lexOrder_cons, orderingOf_compareNumbers h h']

/-- **The order of keys is the order of their ranks**, by induction on the first key. -/
theorem lexOrder_rank_append (key : IDBKey) : ∀ (other : IDBKey) (rest₁ rest₂ : List Int), Every NotNaN key →
    Every NotNaN other → lexOrder (rank key ++ rest₁) (rank other ++ rest₂) =
      (orderingOf (compare key other)).then (lexOrder rest₁ rest₂) := by
  induction key using IDBKey.induct with
  | invalid =>
    intro other rest₁ rest₂ _ _
    cases other with
    | invalid => exact lexOrder_cons_self _ rest₁ rest₂
    | _ => exact lexOrder_rank_of_type_ne (by simp [type]) rest₁ rest₂
  | array items ih =>
    intro other rest₁ rest₂ h₁ h₂
    cases other with
    | array items' =>
      have hitems := lexOrder_rankItems_append items items' rest₁ rest₂
        (fun item hitem item' hitem' tail₁ tail₂ =>
          ih item hitem item' tail₁ tail₂ ((every_array.mp h₁).2 item hitem) ((every_array.mp h₂).2 item' hitem'))
      rw [rank, rank, compare, if_neg (by simp [type]), List.cons_append, List.cons_append, lexOrder_cons_self, hitems]
    | _ => exact lexOrder_rank_of_type_ne (by simp [type]) rest₁ rest₂
  | string text =>
    intro other rest₁ rest₂ _ _
    cases other with
    | string text' =>
      rw [rank, rank, compare, if_neg (by simp [type]), List.cons_append, List.cons_append, lexOrder_cons_self,
        lexOrder_rankText_append, orderingOf_neg, ← codePointCompare_swap]
    | _ => exact lexOrder_rank_of_type_ne (by simp [type]) rest₁ rest₂
  | date time =>
    intro other rest₁ rest₂ h₁ h₂
    cases other with
    | date time' =>
      rw [rank, rank, compare, if_neg (by simp [type])]
      exact lexOrder_number_append _ h₁ h₂ rest₁ rest₂
    | _ => exact lexOrder_rank_of_type_ne (by simp [type]) rest₁ rest₂
  | number value =>
    intro other rest₁ rest₂ h₁ h₂
    cases other with
    | number value' =>
      rw [rank, rank, compare, if_neg (by simp [type])]
      exact lexOrder_number_append _ h₁ h₂ rest₁ rest₂
    | _ => exact lexOrder_rank_of_type_ne (by simp [type]) rest₁ rest₂

theorem decides_rank {key other : IDBKey} (h : Every NotNaN key) (h' : Every NotNaN other) :
    Decides (compare key other) (rank key) (rank other) :=
  fun rest rest' => lexOrder_rank_append key other rest rest' h h'

theorem decides_rankText (text₁ text₂ : List UChar) :
    Decides (codePointCompare text₁ text₂) (rankText text₁) (rankText text₂) :=
  lexOrder_rankText_append text₁ text₂

/-! ## Ties -/

mutual

/-- The same key, where numbers are the same when they are `==`. -/
@[grind =] def Same : IDBKey → IDBKey → Prop
  | invalid, invalid => True
  | array items, array items' => SameItems items items'
  | string text, string text' => text = text'
  | date time, date time' => time.value = time'.value
  | number value, number value' => value.value = value'.value
  | _, _ => False

@[grind =] def SameItems : List IDBKey → List IDBKey → Prop
  | [], [] => True
  | item :: items, item' :: items' => Same item item' ∧ SameItems items items'
  | _, _ => False

end

theorem codePointCompare_eq_zero {text₁ text₂ : List UChar} (h : codePointCompare text₁ text₂ = 0) :
    text₁ = text₂ := by
  induction text₁ generalizing text₂ with
  | nil =>
    cases text₂ with
    | nil => rfl
    | cons c₂ text₂ => exact absurd h (by simp [codePointCompare])
  | cons c₁ text₁ ih =>
    cases text₂ with
    | nil => exact absurd h (by simp [codePointCompare])
    | cons c₂ text₂ =>
      rw [codePointCompare] at h
      by_cases heq : c₁ = c₂
      · rw [if_pos heq] at h
        rw [heq, ih h]
      · rw [if_neg heq] at h
        split at h <;> exact absurd h (by decide)

theorem value_eq_of_compareNumbers {number other : Double} (h : number.isNaN = false) (h' : other.isNaN = false)
    (hzero : compareNumbers number other = 0) : number.value = other.value := by
  rw [← compare_eq_iff_eq, ← orderingOf_compareNumbers h h', hzero]
  rfl

theorem type_eq_of_compare {key other : IDBKey} (h : compare key other = 0) : key.type = other.type := by
  by_contra hne
  rw [compare.eq_def, if_pos hne] at h
  split at h <;> exact absurd h (by decide)

theorem sameItems_of_compareItems {items items' : List IDBKey}
    (hitems : ∀ item ∈ items, ∀ item' ∈ items', compare item item' = 0 → Same item item')
    (h : compareItems items items' = 0) : SameItems items items' := by
  induction items generalizing items' with
  | nil =>
    cases items' with
    | nil => exact trivial
    | cons item' items' => exact absurd h (by simp [compareItems])
  | cons item items ih =>
    cases items' with
    | nil => exact absurd h (by simp [compareItems])
    | cons item' items' =>
      rw [compareItems] at h
      by_cases hhead : compare item item' = 0
      · rw [if_neg (not_not.mpr hhead)] at h
        exact ⟨hitems item List.mem_cons_self item' List.mem_cons_self hhead,
          ih (fun x hx y hy => hitems x (List.mem_cons_of_mem _ hx) y (List.mem_cons_of_mem _ hy)) h⟩
      · rw [if_pos hhead] at h
        exact absurd h hhead

/-- Only keys that are the same tie, by induction on the first key. -/
theorem same_of_compare {key other : IDBKey} (h : Every NotNaN key) (h' : Every NotNaN other)
    (hzero : compare key other = 0) : Same key other := by
  have htype := type_eq_of_compare hzero
  induction key using IDBKey.induct generalizing other with
  | invalid =>
    cases other with
    | invalid => exact trivial
    | _ => exact absurd htype (by simp [type])
  | array items ih =>
    cases other with
    | array items' =>
      rw [compare, if_neg (not_not.mpr htype)] at hzero
      exact sameItems_of_compareItems (fun item hitem item' hitem' hz =>
        ih item hitem ((every_array.mp h).2 item hitem) ((every_array.mp h').2 item' hitem') hz
          (type_eq_of_compare hz)) hzero
    | _ => exact absurd htype (by simp [type])
  | string text =>
    cases other with
    | string text' =>
      rw [compare, if_neg (not_not.mpr htype)] at hzero
      exact (codePointCompare_eq_zero (neg_eq_zero.mp hzero)).symm
    | _ => exact absurd htype (by simp [type])
  | date time =>
    cases other with
    | date time' =>
      rw [compare, if_neg (not_not.mpr htype)] at hzero
      exact value_eq_of_compareNumbers h h' hzero
    | _ => exact absurd htype (by simp [type])
  | number value =>
    cases other with
    | number value' =>
      rw [compare, if_neg (not_not.mpr htype)] at hzero
      exact value_eq_of_compareNumbers h h' hzero
    | _ => exact absurd htype (by simp [type])

end IDBKey

end WebKit.WebCore
