import GemStaging.Path

/-!
Where staging reads and writes. Four directories are configured; the gem home and the two
directories that matter inside it follow from the first of them.
-/

namespace GemStaging

structure LayoutSection where
  buildDir : Path := ⟨"target"⟩
  sharedLib : Path := ⟨"ruby/shared"⟩
  binStubs : Path := ⟨"ruby/gems/shared/gems"⟩
  defaultSpecs : Path := ⟨"ruby/gems/shared/specifications/default"⟩
deriving DecidableEq, Inhabited

structure Layout where
  buildDir : Path
  gemHome : Path
  gemsDir : Path
  specsDir : Path
  sharedLib : Path
  binStubs : Path
  defaultSpecs : Path
deriving DecidableEq, Inhabited

/-- The directories of a section, against the directory of its manifest. -/
def Layout.resolve (baseDir : Path) (config : LayoutSection) : Layout :=
  let buildDir := baseDir.join config.buildDir
  let gemHome := buildDir / "rubygems"
  { buildDir, gemHome
    gemsDir := gemHome / "gems"
    specsDir := gemHome / "specifications"
    sharedLib := baseDir.join config.sharedLib
    binStubs := baseDir.join config.binStubs
    defaultSpecs := baseDir.join config.defaultSpecs }

end GemStaging
