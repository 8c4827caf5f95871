import TypeInference.Config.Toml
import TypeInference.Proofs.Partitions
import TypeInference.Proofs.Mismatches
import TypeInference.Proofs.Nesting
import TypeInference.Proofs.BreakTargets
import TypeInference.Proofs.ReportIndependence
import TypeInference.Proofs.Joins
import TypeInference.Proofs.Reborrows
import TypeInference.Proofs.NormalForms
import TypeInference.Proofs.Receivers
import TypeInference.Proofs.ParentLinks
import TypeInference.Proofs.JumpTargets
import TypeInference.Proofs.ExplicitArguments
