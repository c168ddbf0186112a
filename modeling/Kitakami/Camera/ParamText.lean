import Kitakami.Base.EntryText
import Kitakami.Camera.Parameters

/-!
# Parameters in their text

`CameraDevice.cpp` reads and changes single parameters in the flattened string,
without the map. Both views agree on the strings that the map flattens to.
-/

namespace Kitakami
namespace Camera

open KeyValues

/-- Where the value of the parameter starts, if there is one. -/
def findParam (params key : Str) : Option ℕ :=
  if params.take (key.length+1) = key ++ [equalsSign] then some (key.length+1)
  else (findList (semicolon::(key ++ [equalsSign])) params).map (· + (key.length+2))

/-- `params.find(';', start) - start`, or as much as there is. -/
def valueLength (params : Str) (start : ℕ) : ℕ := (params.drop start).findIdx (· = semicolon)

def getParam (params key : Str) : Str :=
  match findParam params key with
  | none => []
  | some start => (params.drop start).take (valueLength params start)

def setParam (params key value : Str) : Str :=
  match findParam params key with
  | none => params
  | some start =>
    params.take start ++ value ++ params.drop (start + valueLength params start)

/-- A map that is read from any string and changed by any calls of `set` has keys without `=` and
values without `;`, and is what its text reads as. So reading and writing a string once
more changes nothing. -/
theorem parameters_lossless (flattened : Str) (calls : List (Key × Option Str)) :
    let p := (Parameters.ofString flattened).setAll calls
    (∀ k v : Str, p.mMap[k]? = some v → equalsSign ∉ k ∧ semicolon ∉ v) ∧
      Parameters.ofString p.flatten = p ∧
      (Parameters.ofString (Parameters.ofString flattened).flatten).flatten =
        (Parameters.ofString flattened).flatten := by
  intro p
  refine ⟨fun k v h => ⟨p.clean.key k v h,p.clean.value k v h⟩,Parameters.ofString_flatten p,?_⟩
  rw [Parameters.ofString_flatten]

/-! ## Single parameters -/

variable {k v : Str} {l pre post : List (Str × Str)}

theorem findParam_first (hk : equalsSign ∉ k) {e : Str × Str} (he : equalsSign ∉ e.1) (s : Str) :
    (e.1 ++ equalsSign::e.2 ++ s).take (k.length+1) = k ++ [equalsSign] ↔ k = e.1 := by
  rw [← isPrefixOf_key_iff (r:=e.2 ++ s) hk he,List.isPrefixOf_iff_prefix,List.prefix_iff_eq_take]
  simp [eq_comm]

theorem findParam_none (h : Separable equalsSign semicolon l) (hk : equalsSign ∉ k)
    (hl : ∀ e ∈ l, k ≠ e.1) : findParam (text equalsSign semicolon l) k = none := by
  cases l with
  | nil => simp [findParam,text,findList,List.isPrefixOf]
  | cons e l =>
    have hfirst := (findParam_first hk (h e List.mem_cons_self).1
      (tail equalsSign semicolon l)).not.mpr (hl e List.mem_cons_self)
    rw [findParam,text,if_neg hfirst,findList_skip (h.notMem (by decide)),
      findList_tail_none (by decide) h.tail hk fun e he => hl e (List.mem_cons_of_mem _ he)]
    rfl

theorem findParam_some (h : Separable equalsSign semicolon (pre ++ (k,v)::post))
    (hpre : ∀ e ∈ pre, k ≠ e.1) :
    findParam (text equalsSign semicolon (pre ++ (k,v)::post)) k =
      some ((before equalsSign semicolon pre).length + (k.length+1)) := by
  have hk : equalsSign ∉ k := (h (k,v) (by simp)).1
  cases pre with
  | nil =>
    have hfirst := (findParam_first (e:=(k,v)) hk hk (tail equalsSign semicolon post)).mpr rfl
    rw [List.nil_append,findParam,text,if_pos hfirst]
    simp [before]
  | cons e pre =>
    have hfirst := (findParam_first hk (h e List.mem_cons_self).1
      (tail equalsSign semicolon (pre ++ (k,v)::post))).not.mpr (hpre e List.mem_cons_self)
    rw [List.cons_append,findParam,text,if_neg hfirst,findList_skip (h.notMem (by decide)),
      findList_tail_some (by decide) h.tail fun e he => hpre e (List.mem_cons_of_mem _ he)]
    simp only [before,text,Option.map_some,List.length_append,List.length_cons,List.length_nil,
      Option.some.injEq]
    omega

/-- The value ends where the next entry begins. -/
theorem findIdx_value (hv : semicolon ∉ v) (post : List (Str × Str)) :
    (v ++ tail equalsSign semicolon post).findIdx (· = semicolon) = v.length := by
  have hnone : v.findIdx (· = semicolon) = v.length := by
    refine List.findIdx_eq_length.mpr fun c hc => ?_
    simpa using fun he : c = semicolon => hv (he ▸ hc)
  rw [List.findIdx_append,if_neg (by omega)]
  cases post with
  | nil => simp [tail]
  | cons e post => simp [tail_cons,List.findIdx_cons]

/-- The text split at the value of an entry. -/
theorem text_split (pre post : List (Str × Str)) (k v : Str) :
    text equalsSign semicolon (pre ++ (k,v)::post) =
      (before equalsSign semicolon pre ++ (k ++ [equalsSign])) ++
        (v ++ tail equalsSign semicolon post) := by
  rw [text_append]
  simp

theorem getParam_text (h : Separable equalsSign semicolon (pre ++ (k,v)::post))
    (hpre : ∀ e ∈ pre, k ≠ e.1) :
    getParam (text equalsSign semicolon (pre ++ (k,v)::post)) k = v := by
  have hv : semicolon ∉ v := (h (k,v) (by simp)).2.2
  have hlen : (before equalsSign semicolon pre).length + (k.length+1) =
      (before equalsSign semicolon pre ++ (k ++ [equalsSign])).length := by simp
  simp only [getParam,findParam_some h hpre,valueLength]
  rw [hlen,text_split,List.drop_left,findIdx_value hv,List.take_left]

theorem setParam_text (h : Separable equalsSign semicolon (pre ++ (k,v)::post))
    (hpre : ∀ e ∈ pre, k ≠ e.1) (w : Str) :
    setParam (text equalsSign semicolon (pre ++ (k,v)::post)) k w =
      text equalsSign semicolon (pre ++ (k,w)::post) := by
  have hv : semicolon ∉ v := (h (k,v) (by simp)).2.2
  have hlen : (before equalsSign semicolon pre).length + (k.length+1) =
      (before equalsSign semicolon pre ++ (k ++ [equalsSign])).length := by simp
  simp only [setParam,findParam_some h hpre,valueLength]
  rw [hlen,text_split,List.drop_left,findIdx_value hv,List.take_left,← List.drop_drop,List.drop_left,
    List.drop_left,text_split]
  simp only [List.append_assoc]

/-- On the text of a map whose keys and values keep clear of the two signs, the functions on the
text do what the map does: they read the value of the key, or nothing, and replace it where
it is. -/
theorem params_agree (m : KeyValues.Map UInt8)
    (hm : ∀ k v : Str, m[k]? = some v → equalsSign ∉ k ∧ semicolon ∉ k ∧ semicolon ∉ v) (k v : Str)
    (hk : equalsSign ∉ k) :
    getParam (KeyValues.flatten equalsSign semicolon m) k = m[k]?.getD [] ∧
      setParam (KeyValues.flatten equalsSign semicolon m) k v =
        if (m[k]?).isSome then KeyValues.flatten equalsSign semicolon (m.insert k v)
        else KeyValues.flatten equalsSign semicolon m := by
  have hsep : Separable equalsSign semicolon m.toList := fun e he =>
    hm _ _ (Std.ExtTreeMap.mem_toList_iff_getElem?_eq_some.mp he)
  simp only [flatten_eq_text]
  cases hget : m[k]? with
  | none =>
    have hnot : ∀ e ∈ m.toList, k ≠ e.1 := by
      rintro ⟨k',v'⟩ he rfl
      rw [Std.ExtTreeMap.mem_toList_iff_getElem?_eq_some,hget] at he
      cases he
    have hnone := findParam_none hsep hk hnot
    exact ⟨by rw [getParam,hnone]; rfl,by rw [setParam,hnone]; rfl⟩
  | some u =>
    obtain ⟨pre,post,hl,hpre⟩ := exists_toList hget
    rw [hl] at hsep
    rw [toList_insert hl v,hl]
    exact ⟨getParam_text hsep hpre,setParam_text hsep hpre v⟩

def suffixMap : KeyValues.Map UInt8 :=
  ((∅ : KeyValues.Map UInt8).insert (str "iso") (str "a=b")).insert (str "sony-iso") []

/-- A key that ends another key, a value with `=`, and an empty value at the end. -/
theorem params_agree_suffixMap :
    getParam (KeyValues.flatten equalsSign semicolon suffixMap) (str "iso") = str "a=b" := by
  have hget : suffixMap[str "iso"]? = some (str "a=b") := by
    simp only [suffixMap,getElem?_insert]
    decide
  have hm : ∀ k v : Str, suffixMap[k]? = some v →
      equalsSign ∉ k ∧ semicolon ∉ k ∧ semicolon ∉ v := by
    intro k v h
    simp only [suffixMap,getElem?_insert] at h
    split at h
    · case _ hk =>
      obtain rfl := Option.some.inj h
      exact hk ▸ by decide
    split at h
    · case _ hk =>
      obtain rfl := Option.some.inj h
      exact hk ▸ by decide
    · simp at h
  have h := (params_agree suffixMap hm (str "iso") [] (by decide)).1
  rwa [hget] at h

end Camera
end Kitakami
