/-
# SymbolAtlas.CommandLine.Libraries -- the libraries that the program is built with

The rest of the program takes what these libraries do as given: patterns, digests, module
names and the form of a file of settings.
-/
import SymbolAtlas.Digest
import SymbolAtlas.Glob
import SymbolAtlas.Module.Escaped
import SymbolAtlas.Module.File
import SymbolAtlas.PathMapper
import SymbolAtlas.Repository.Digests
import SymbolAtlas.Yaml.Settings

set_option autoImplicit false

namespace SymbolAtlas

instance : Globs where
  matchesPath := Glob.isMatch
  matchesName := Glob.isMatch

instance : Digester where
  digest := Digest.hexOf

instance : ModuleNames where
  declared := Module.pathOf
  unescapePath? := Module.unescapePath?
  unescapeVersion? := Module.unescapeVersion?

instance : SettingsFormat where
  decode? := Yaml.decodeSettings?
  encode := Yaml.encodeSettings

end SymbolAtlas
