/-
The settings file to start from.
-/

namespace LineEndings

/-- A settings file that says what holds anyway, with one override as an example. -/
def SettingsFile.template : String :=
"# eol-guardian settings
#
# Stop looking for .eolguard.toml files in parent directories.
root = true

# Line ending to expect when neither .editorconfig nor an override applies.
# One of \"lf\", \"crlf\" or \"auto\" (no opinion).
expected-eol = \"auto\"

# Let .editorconfig end_of_line / insert_final_newline take priority.
respect-editorconfig = true

# Only add missing trailing newlines; never convert line endings.
final-newline-only = false

# Files to skip, as globs relative to the working directory.
ignore = [\"**/*.min.js\"]

# Per-pattern line endings. The first matching override wins.
[[overrides]]
pattern = \"*.\x7bbat,cmd\x7d\"
eol = \"crlf\"
description = \"Windows scripts\"
"

end LineEndings
